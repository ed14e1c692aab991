import Reactivity.Proofs.Registration.Asking

namespace Reactivity

namespace World

def MadeBy (w : World) (rt : RuntimeId) (n : NodeId) : Prop :=
  (∃ e, w.effect? n = some e ∧ e.runtime = rt) ∨ ∃ m, w.memo? n = some m ∧ m.runtime = rt

variable {w w' w'' : World} {rt rt' : RuntimeId} {n : NodeId}

theorem MadeBy.mono (he : w.Extends w') (h : w.MadeBy rt n) : w'.MadeBy rt n := by
  rcases h with ⟨e, hn, rfl⟩ | ⟨m, hn, rfl⟩
  · obtain ⟨e', hn', hr, -⟩ := he.effects n e hn
    exact .inl ⟨e', hn', hr⟩
  · obtain ⟨m', hn', hr, -⟩ := he.memos n m hn
    exact .inr ⟨m', hn', hr⟩

theorem MadeBy.unique (h : w.MadeBy rt n) (h' : w.MadeBy rt' n) : rt = rt' := by
  rcases h with ⟨e, hn, rfl⟩ | ⟨m, hn, rfl⟩ <;> rcases h' with ⟨e', hn', rfl⟩ | ⟨m', hn', rfl⟩
  · rw [Option.some.inj (hn.symm.trans hn')]
  · rw [memo?_eq_none_of_effect? (Option.isSome_of_eq_some hn)] at hn'
    cases hn'
  · rw [memo?_eq_none_of_effect? (Option.isSome_of_eq_some hn')] at hn
    cases hn
  · rw [Option.some.inj (hn.symm.trans hn')]

theorem MadeBy.memo_runtime {m : Memo} (h : w.MadeBy rt n) (hm : w.memo? n = some m) :
    m.runtime = rt :=
  MadeBy.unique (.inr ⟨m, hm, rfl⟩) h

/-- The runtimes are kept apart: the computations that a runtime attributes reads to, those in its
queue and those registered on its things were all made by it, and so was at all times whatever it has
queued and registered. -/
structure Separate (w : World) : Prop where
  context : ∀ rt n, some n ∈ (w.runtime rt).context → w.MadeBy rt n
  queue : ∀ rt, ∀ n ∈ (w.runtime rt).queue, w.MadeBy rt n
  readers : ∀ h key n, (key, n) ∈ w.readers h → w.MadeBy (w.owner h) n
  tracked : ∀ n h key, .tracked n h key ∈ w.history → w.MadeBy (w.owner h) n
  queued : ∀ rt n, .queued rt n ∈ w.history → w.MadeBy rt n

end World

def Event.Places : Event → Prop
  | .tracked .. | .queued .. => True
  | _ => False

/-- A node was registered on things of the runtime that made it, and queued by that runtime. -/
def Event.AtHome (w : World) : Event → Prop
  | .tracked n h _ => h.Valid w ∧ w.MadeBy (w.owner h) n
  | .queued rt n => w.MadeBy rt n
  | _ => True

theorem Event.AtHome.mono {w w' : World} (he : w.Extends w') {e : Event} (h : e.AtHome w) :
    e.AtHome w' := by
  cases e with
  | tracked n x key => exact ⟨h.1.mono he, (he.owner_eq h.1).symm ▸ h.2.mono he⟩
  | queued rt n => exact World.MadeBy.mono he h
  | _ => trivial

theorem Event.AtHome.of_not_places {w : World} {e : Event} (h : ¬ e.Places) : e.AtHome w := by
  cases e <;> first | trivial | exact absurd trivial h

/-- What a runtime has to do for its things concerns the nodes that it has made. -/
def Frame.AtHome (w : World) : Frame → Prop
  | .writing rt h _ => w.owner h = rt
  | .telling rt nodes => ∀ n ∈ nodes, w.MadeBy rt n
  | .running n rt => w.MadeBy rt n
  | .computing n rt _ => w.MadeBy rt n
  | .round rt batch => ∀ n ∈ batch, w.MadeBy rt n
  | .amid s => ∀ rt, s.mask? = some rt → w.MadeBy rt s.node
  | _ => True

theorem Frame.AtHome.mono {w w' : World} (he : w.Extends w') {f : Frame} (hv : f.Valid w)
    (h : f.AtHome w) : f.AtHome w' := by
  cases f with
  | writing rt x keys => exact (he.owner_eq hv.2).trans h
  | telling rt nodes => exact fun n hn => (h n hn).mono he
  | running n rt => exact World.MadeBy.mono he h
  | computing n rt start => exact World.MadeBy.mono he h
  | round rt batch => exact fun n hn => (h n hn).mono he
  | amid s => exact fun rt hrt => (h rt hrt).mono he
  | _ => trivial

theorem Frame.AtHome.cleaning {w : World} {rt : RuntimeId} {n : NodeId} {left : List Closure}
    (h : w.MadeBy rt n) : (Frame.amid (.cleaning n rt left)).AtHome w :=
  fun _ hrt => Option.some.inj hrt ▸ h

def Frame.IsTurn (n : NodeId) (f : Frame) : Prop :=
  f = .pending n

/-- A node whose turn in a round has come was made by the runtime whose round it is. -/
def TurnsAtHome (w : World) : List Frame → Prop
  | [] => True
  | f :: g => (∀ n rt batch s, f.IsTurn n → g = .round rt batch :: s → w.MadeBy rt n) ∧
    TurnsAtHome w g

namespace TurnsAtHome

variable {w w' : World} {f f' : Frame} {g : List Frame}

theorem mono (he : w.Extends w') (h : TurnsAtHome w g) : TurnsAtHome w' g := by
  induction g with
  | nil => trivial
  | cons f g ih => exact ⟨fun n rt batch s hf hg => (h.1 n rt batch s hf hg).mono he, ih h.2⟩

theorem push (hf : ∀ n, ¬ f.IsTurn n) (h : TurnsAtHome w g) : TurnsAtHome w (f :: g) :=
  ⟨fun n _ _ _ hn => absurd hn (hf n), h⟩

end TurnsAtHome

namespace World

/-- `w.Places w'`: what is queued anew, and what the past tells of nodes that were queued or
registered, concerns nodes at home. -/
structure PlacesAtHome (w w' : World) : Prop where
  queue : ∀ rt, ∀ n ∈ w'.queue rt, n ∈ w.queue rt ∨ w'.MadeBy rt n
  past : ∃ new, w'.history = new ++ w.history ∧ ∀ e ∈ new, e.AtHome w'

namespace PlacesAtHome

variable {w w' : World}

theorem of_queue (hq : ∀ rt, ∀ n ∈ w'.queue rt, n ∈ w.queue rt) (new : List Event)
    (hh : w'.history = new ++ w.history) (hn : ∀ e ∈ new, ¬ e.Places) : w.PlacesAtHome w' :=
  ⟨fun rt n hm => .inl (hq rt n hm), new, hh, fun e he => .of_not_places (hn e he)⟩

theorem of_unasking (hu : ∀ rt, w.Unasking rt w') (new : List Event)
    (hh : w'.history = new ++ w.history) (hn : ∀ e ∈ new, ¬ e.Places) : w.PlacesAtHome w' :=
  of_queue (fun rt n hm => by rwa [(hu rt).queue] at hm) new hh hn

theorem of_runtimes (hr : w'.runtimes = w.runtimes) (new : List Event)
    (hh : w'.history = new ++ w.history) (hn : ∀ e ∈ new, ¬ e.Places) : w.PlacesAtHome w' :=
  of_queue (fun rt n hm => by rwa [World.queue, World.runtime, hr] at hm) new hh hn

theorem refl (w : World) : w.PlacesAtHome w :=
  of_runtimes rfl [] rfl (by simp)

theorem note (w : World) {e : Event} (h : ¬ e.Places) : w.PlacesAtHome (w.note e) :=
  of_runtimes rfl [e] rfl fun _ hm => List.mem_singleton.1 hm ▸ h

theorem modifyRuntime (w : World) (rt : RuntimeId) {f : Runtime → Runtime}
    (hf : ∀ r, (f r).queue = r.queue) : w.PlacesAtHome (w.modifyRuntime rt f) :=
  of_queue (fun j n hm => by rwa [w.queue_modifyRuntime rt j hf] at hm) [] rfl (by simp)

theorem emptied (w : World) (rt : RuntimeId) {e : Event} (h : ¬ e.Places) :
    w.PlacesAtHome ((w.modifyRuntime rt fun r => { r with queue := [] }).note e) := by
  refine of_queue (fun j n hm => ?_) [e] rfl fun _ hm => List.mem_singleton.1 hm ▸ h
  have hm : n ∈ (w.modifyRuntime rt fun r => { r with queue := [] }).queue j := hm
  rw [World.queue, runtime_modifyRuntime] at hm
  split at hm
  · cases hm
  · exact hm

theorem trackedBy {n : NodeId} {h : Handle} (hv : h.Valid w) (hn : w.MadeBy (w.owner h) n)
    (key : Key) : w.PlacesAtHome (w.trackedBy n h key) where
  queue rt m hm := .inl (by rwa [queue_congr (runtimes_trackedBy w n h key)] at hm)
  past := by
    refine ⟨[.tracked n h key], history_trackedBy w n h key, fun e he => ?_⟩
    have hhome : (Event.tracked n h key).AtHome w := ⟨hv, hn⟩
    exact List.mem_singleton.1 he ▸ hhome.mono (.trackedBy w n h key)

theorem queuedIn {rt : RuntimeId} {n : NodeId} (hn : w.MadeBy rt n) :
    w.PlacesAtHome (w.queuedIn rt n) where
  queue j m hm := by
    rw [queue_queuedIn] at hm
    split at hm
    · next hj =>
      rcases List.mem_append.1 hm with hm | hm
      · exact .inl hm
      · obtain rfl := List.mem_singleton.1 hm
        exact .inr (hj.1 ▸ hn.mono (.queuedIn w rt m))
    · exact .inl hm
  past := by
    have hhome : (Event.queued rt n).AtHome (w.queuedIn rt n) := hn.mono (.queuedIn w rt n)
    rcases history_queuedIn w rt n with hh | hh
    · exact ⟨[.queued rt n], hh, fun e he => List.mem_singleton.1 he ▸ hhome⟩
    · refine ⟨[.requested rt, .queued rt n], hh, fun e he => ?_⟩
      rcases List.mem_cons.1 he with rfl | he
      · trivial
      · exact List.mem_singleton.1 he ▸ hhome

theorem trans {w'' : World} (h : w.PlacesAtHome w') (he : w'.Extends w'') (h' : w'.PlacesAtHome w'') :
    w.PlacesAtHome w'' where
  queue rt n hm := by
    rcases h'.queue rt n hm with hm | hn
    · exact (h.queue rt n hm).imp id (·.mono he)
    · exact .inr hn
  past := by
    obtain ⟨new, hh, hn⟩ := h.past
    obtain ⟨new', hh', hn'⟩ := h'.past
    refine ⟨new' ++ new, by rw [hh', hh, List.append_assoc], fun e hm => ?_⟩
    exact (List.mem_append.1 hm).elim (hn' e) fun hm => (hn e hm).mono he

end PlacesAtHome

end World

/-- The runtimes are kept apart in a configuration. -/
structure Config.Separate (c : Config) : Prop where
  queue : ∀ rt, ∀ n ∈ c.world.queue rt, c.world.MadeBy rt n
  past : ∀ e ∈ c.world.history, e.AtHome c.world
  frames : ∀ f ∈ c.stack, f.AtHome c.world
  turns : TurnsAtHome c.world c.stack

namespace Config.Separate

variable {w w' : World} {g g' : List Frame} {f f' : Frame} {u u' : Bool}

/-- A step that places nodes at home only, and by which only frames are added that do. -/
theorem keep (hc : Config.Separate ⟨w, g, u⟩) (hs : Config.Sane ⟨w, g, u⟩) (he : w.Extends w')
    (hp : w.PlacesAtHome w') (hf : ∀ f ∈ g', f ∈ g ∨ f.AtHome w')
    (ht : TurnsAtHome w' g → TurnsAtHome w' g') : Config.Separate ⟨w', g', u'⟩ where
  queue rt n hn := (hp.queue rt n hn).elim (fun hq => (hc.queue rt n hq).mono he) id
  past e hm := by
    obtain ⟨new, hh, hnew⟩ := hp.past
    rw [hh] at hm
    exact (List.mem_append.1 hm).elim (hnew e) fun hm => (hc.past e hm).mono he
  frames f hm := (hf f hm).elim (fun hm => (hc.frames f hm).mono he (hs.frames f hm)) id
  turns := ht (hc.turns.mono he)

theorem stay (hc : Config.Separate ⟨w, g, u⟩) (hs : Config.Sane ⟨w, g, u⟩) (he : w.Extends w')
    (hp : w.PlacesAtHome w') : Config.Separate ⟨w', g, u'⟩ :=
  hc.keep hs he hp (fun _ => .inl) id

theorem pop (hc : Config.Separate ⟨w, f :: g, u⟩) (hs : Config.Sane ⟨w, f :: g, u⟩)
    (he : w.Extends w') (hp : w.PlacesAtHome w') : Config.Separate ⟨w', g, u'⟩ :=
  hc.keep hs he hp (fun _ hf => .inl (List.mem_cons_of_mem _ hf)) (·.2)

theorem push (hc : Config.Separate ⟨w, g, u⟩) (hs : Config.Sane ⟨w, g, u⟩) (he : w.Extends w')
    (hp : w.PlacesAtHome w') (hf : f.AtHome w') (ht : ∀ n, ¬ f.IsTurn n) :
    Config.Separate ⟨w', f :: g, u'⟩ :=
  hc.keep hs he hp (fun _ hm => (List.mem_cons.1 hm).elim (fun h => .inr (h ▸ hf)) .inl)
    (.push ht)

theorem swap (hc : Config.Separate ⟨w, f :: g, u⟩) (hs : Config.Sane ⟨w, f :: g, u⟩)
    (he : w.Extends w') (hp : w.PlacesAtHome w') (hf : f'.AtHome w') (ht : ∀ n, ¬ f'.IsTurn n) :
    Config.Separate ⟨w', f' :: g, u'⟩ :=
  hc.keep hs he hp (fun _ hm => (List.mem_cons.1 hm).elim (fun h => .inr (h ▸ hf))
    fun hm => .inl (List.mem_cons_of_mem _ hm)) fun h => .push ht h.2

theorem tell {rt : RuntimeId} {n : NodeId} {ns : List NodeId}
    (hc : Config.Separate ⟨w, .telling rt (n :: ns) :: g, u⟩)
    (hs : Config.Sane ⟨w, .telling rt (n :: ns) :: g, u⟩) (he : w.Extends w')
    (hp : w.PlacesAtHome w') : Config.Separate ⟨w', .telling rt ns :: g, u'⟩ := by
  have hns : ∀ m ∈ n :: ns, w.MadeBy rt m := hc.frames _ (List.mem_cons_self ..)
  exact hc.swap hs he hp (fun m hm => (hns m (List.mem_cons_of_mem _ hm)).mono he)
    (by simp [Frame.IsTurn])

theorem atop (hc : Config.Separate ⟨w, g, u⟩) (hf : f.AtHome w) (ht : ∀ n, ¬ f.IsTurn n) :
    Config.Separate ⟨w, f :: g, u⟩ where
  queue := hc.queue
  past := hc.past
  frames _ hm := (List.mem_cons.1 hm).elim (fun h => h ▸ hf) (hc.frames _)
  turns := .push ht hc.turns

end Config.Separate

theorem Aside.placesAtHome {w w' : World} (h : Aside w w') : w.PlacesAtHome w' := by
  have hr := h.runtimes_eq
  cases h with
  | bind name b valid => exact .of_runtimes hr [.bound name] rfl (by simp [Event.Places])
  | unbind name => exact .of_runtimes hr [.bound name] rfl (by simp [Event.Places])
  | log r => exact .of_runtimes hr [] rfl (by simp)
  | clearLog => exact .of_runtimes hr [] rfl (by simp)
  | external content => exact .of_runtimes hr [] rfl (by simp)
  | task rt tasks h => exact .of_runtimes hr [] rfl (by simp)
  | hold _ => exact .of_runtimes hr [] rfl (by simp)
  | release _ _ => exact .of_runtimes hr [] rfl (by simp)
  | cancel sub _ =>
    exact .of_runtimes hr [.unsubscribed sub] (w.history_cancelled sub) (by simp [Event.Places])
  | _ => exact .note w id

theorem World.owner_memo (w : World) {n : NodeId} {m : Memo} (h : w.memo? n = some m) :
    w.owner (.memo n) = m.runtime := by
  rw [World.owner, h, Option.elim_some]

theorem exists_of_mem_contextOf {rt : RuntimeId} {n : NodeId} {g : List Frame}
    (h : some n ∈ contextOf rt g) :
    .running n rt ∈ g ∨ ∃ start, .computing n rt start ∈ g := by
  rw [contextOf_eq_filterMap] at h
  obtain ⟨f, hf, he⟩ := List.mem_filterMap.1 h
  rcases Frame.context?_eq_some.1 he with rfl | ⟨start, rfl⟩
  · exact .inl hf
  · exact .inr ⟨start, hf⟩

namespace Config.Separate

variable {c : Config}

theorem context (hc : c.Separate) (hs : c.Sane) {rt : RuntimeId} {n : NodeId}
    (hn : some n ∈ c.world.context rt) : c.world.MadeBy rt n := by
  have hrt : rt < c.world.runtimes.size := by
    by_contra hrt
    rw [World.context, World.runtime, Array.getElem?_eq_none (Nat.le_of_not_lt hrt)] at hn
    cases hn
  rw [hs.context rt hrt] at hn
  rcases exists_of_mem_contextOf hn with hf | ⟨start, hf⟩
  · exact hc.frames _ hf
  · exact hc.frames _ hf

theorem madeBy_of_currentReader (hc : c.Separate) (hs : c.Sane) {rt : RuntimeId} {n : NodeId}
    (hn : c.world.currentReader rt = some n) : c.world.MadeBy rt n := by
  refine hc.context hs ?_
  rw [World.currentReader] at hn
  exact List.mem_of_mem_head? (Option.join_eq_some_iff.1 hn)

theorem madeBy_of_reader (hc : c.Separate) (hm : c.world.Mirrored) {h : Handle} {key : Key}
    {n : NodeId} (hn : (key, n) ∈ c.world.readers h) : c.world.MadeBy (c.world.owner h) n := by
  have hpast : .tracked n h key ∈ c.world.history :=
    (List.takeWhile_sublist _).subset (hm.read h key n hn)
  exact (hc.past _ hpast).2

end Config.Separate

theorem World.PlacesAtHome.trackedIn {w : World} {g : List Frame} {u : Bool}
    (hc : Config.Separate ⟨w, g, u⟩) (hs : Config.Sane ⟨w, g, u⟩) {rt : RuntimeId} {h : Handle}
    (hv : h.Valid w) (owner : w.owner h = rt) (key : Key) : w.PlacesAtHome (w.trackedIn rt h key) := by
  rw [World.trackedIn]
  split
  · exact .refl w
  · next n hn =>
    exact .trackedBy hv (owner ▸ hc.madeBy_of_currentReader hs hn) key

theorem Step.separate {c c' : Config} (h : Step c c') (hs : c.Sane) (hm : c.world.Mirrored)
    (hc : c.Separate) : c'.Separate := by
  have he := h.extends
  cases h with
  | aside h => exact hc.stay hs he h.placesAtHome
  | @track w g rt n x key _ valid owner _ reader =>
    have hn := hc.madeBy_of_currentReader hs reader
    exact hc.stay hs he (.trackedBy valid (owner ▸ hn) key)
  | see _ _ _ _ _ _ _ => exact hc.stay hs he (.note _ id)
  | newObject _ _ _ | newArray _ _ _ =>
    exact hc.stay hs he (.of_runtimes rfl [.wrapped _] rfl (by simp [Event.Places]))
  | resolveObject _ _ | resolveArray _ _ => exact hc.stay hs he (.of_runtimes rfl [] rfl (by simp))
  | write _ _ owner edit =>
    have hp := World.PlacesAtHome.of_runtimes edit.runtimes_eq [.wrote _] edit.history
      (by simp [Event.Places])
    exact hc.push hs he hp ((he.owner_eq edit.valid).trans owner) (by simp [Frame.IsTurn])
  | beginChange _ _ _ _ => exact hc.push hs he (.note _ id) trivial (by simp [Frame.IsTurn])
  | @endChange w g rt id before after owner _ =>
    have hv : Handle.Valid w (.array id) := (hs.frames _ (List.mem_cons_self ..)).1
    have hp : w.PlacesAtHome (((w.note (.changeEnded id)).note
        (.wrote (.items id before after))).modifyArray id fun a =>
          { a with cells := after.map .value }) :=
      .of_runtimes rfl [.wrote _, .changeEnded _] rfl (by simp [Event.Places])
    exact hc.swap hs he hp ((he.owner_eq hv).trans owner) (by simp [Frame.IsTurn])
  | abandonChange => exact hc.pop hs he (.note _ id)
  | @trigger w g rt x key keys =>
    have hv : x.Valid w := (hs.frames _ (List.mem_cons_self ..)).2
    have howner : w.owner x = rt := hc.frames _ (List.mem_cons_self ..)
    have hp : w.PlacesAtHome (w.taken x key) :=
      .of_unasking (fun _ => .taken _ _ _) [.triggered x key] (World.history_taken ..)
        (by simp [Event.Places])
    have hw : Config.Separate ⟨w.taken x key, .writing rt x keys :: g, false⟩ :=
      hc.swap hs he hp ((he.owner_eq hv).trans howner) (by simp [Frame.IsTurn])
    exact hw.atop (fun n hn => howner ▸ (hc.madeBy_of_reader hm (Readers.mem_on.1 hn)).mono he)
      (by simp [Frame.IsTurn])
  | written | told => exact hc.pop hs he (.refl _)
  | tellDisposed _ | tellQueued _ _ => exact hc.tell hs he (.refl _)
  | tellEffect _ _ =>
    exact hc.tell hs he (.queuedIn (hc.frames _ List.mem_cons_self _ List.mem_cons_self))
  | tellDirty _ _ => exact hc.tell hs he (.of_runtimes rfl [] rfl (by simp))
  | @tellClean w g rt n ns m memo _ =>
    have hns : ∀ m ∈ n :: ns, w.MadeBy rt m := hc.frames _ (List.mem_cons_self ..)
    have hw : Config.Separate ⟨w.madeDirty n, .telling rt ns :: g, false⟩ :=
      hc.tell hs he (.of_runtimes rfl [] rfl (by simp))
    have hv : Handle.Valid w (.memo n) := Option.isSome_of_eq_some memo
    have howner : w.owner (.memo n) = rt :=
      (w.owner_memo memo).trans ((hns n (List.mem_cons_self ..)).memo_runtime memo)
    exact hw.atop ((he.owner_eq hv).trans howner) (by simp [Frame.IsTurn])
  | @schedule w g n e _ _ effect _ _ _ =>
    have hn : World.MadeBy (w.note (.scheduled n)) e.runtime n := .inl ⟨e, effect, rfl⟩
    exact hc.stay hs he ((World.PlacesAtHome.note w id).trans (.queuedIn _ _ _) (.queuedIn hn))
  | markDirty _ _ _ => exact hc.stay hs he (.of_runtimes rfl [.dirtied _] rfl (by simp [Event.Places]))
  | @markClean w g n m _ _ memo _ =>
    have hv : Handle.Valid w (.memo n) := Option.isSome_of_eq_some memo
    exact hc.push hs he (.of_runtimes rfl [.dirtied _] rfl (by simp [Event.Places]))
      ((he.owner_eq hv).trans (w.owner_memo memo)) (by simp [Frame.IsTurn])
  | newMemo _ _ _ => exact hc.stay hs he (.of_runtimes rfl [] rfl (by simp))
  | @reuse w g n m r _ memo _ _ _ =>
    have hv : Handle.Valid w (.memo n) := Option.isSome_of_eq_some memo
    have ht := World.PlacesAtHome.trackedIn hc hs hv (w.owner_memo memo) .value
    exact hc.push hs he (ht.trans (.note _ _) (.note _ id)) trivial (by simp [Frame.IsTurn])
  | @beginCompute w g n m _ memo _ _ =>
    have hv : Handle.Valid w (.memo n) := Option.isSome_of_eq_some memo
    have ht := World.PlacesAtHome.trackedIn hc hs hv (w.owner_memo memo) .value
    have hn : w.MadeBy m.runtime n := .inr ⟨m, memo, rfl⟩
    have hp := ht.trans (.computing _ n m.runtime) (.of_unasking (fun _ => .computing _ n m.runtime)
      [.started n, .cleared n] (World.history_computing ..) (by simp [Event.Places]))
    have hw : Config.Separate ⟨_, .reading (w.currentReader m.runtime) n :: g, false⟩ :=
      hc.push hs he hp trivial (by simp [Frame.IsTurn])
    exact hw.atop (hn.mono he) (by simp [Frame.IsTurn])
  | endCompute _ _ _ =>
    exact hc.pop hs he (.of_unasking (fun _ => .computed _ _ _ _) [.finished _] rfl
      (by simp [Event.Places]))
  | abandonCompute => exact hc.pop hs he (.of_unasking (fun _ => .popContext _ _) [] rfl (by simp))
  | @endReading w g n reader m r _ _ =>
    refine hc.pop hs he (.of_unasking (fun _ => .gotBy _ _ _ _)
      (.got n r :: (reader.map (.saw · (.memo n) r)).toList) (World.history_gotBy ..) ?_)
    cases reader <;> simp [Event.Places]
  | newEffect _ _ _ _ _ | newStore _ _ _ =>
    exact hc.push hs he (.of_runtimes rfl [] rfl (by simp)) trivial (by simp [Frame.IsTurn])
  | addCleanup _ _ _ _ _ _ =>
    exact hc.stay hs he (.of_runtimes rfl [.cleanupAdded _ _] rfl (by simp [Event.Places]))
  | @beginCleaning w g n e effect =>
    have hn : w.MadeBy e.runtime n := .inl ⟨e, effect, rfl⟩
    exact hc.push hs he (.of_unasking (fun _ => .cleaning _ _ _) [] rfl (by simp))
      (.cleaning (hn.mono he)) (by simp [Frame.IsTurn])
  | @endCleaning w g n rt =>
    have hp : w.PlacesAtHome (w.popContext rt) :=
      .of_unasking (fun _ => .popContext _ _) [] rfl (by simp)
    exact hc.pop hs he (hp.trans (.note _ _) (.note _ id))
  | abandonCleaning _ => exact hc.pop hs he (.of_unasking (fun _ => .popContext _ _) [] rfl (by simp))
  | skipPending _ => exact hc.pop hs he (.refl _)
  | clearRunning _ _ =>
    exact hc.pop hs he (.of_unasking (fun _ => .clearedOf _ _) [.cleared _]
      (World.history_clearedOf ..) (by simp [Event.Places]))
  | @beginRun w g n rt f e effect _ _ turn =>
    have hn : w.MadeBy rt n := by
      rcases turn with ⟨hf, batch, s, hg⟩ | ⟨-, howner⟩
      · exact hc.turns.1 n rt batch s hf hg
      · exact .inl ⟨e, effect, howner⟩
    exact hc.swap hs he (.of_unasking (fun _ => .running _ _ _) [.started _, .cleared _]
      (World.history_running ..) (by simp [Event.Places])) (hn.mono he) (by simp [Frame.IsTurn])
  | endRun _ =>
    exact hc.pop hs he (.of_unasking (fun _ => .ran _ _ _) [.finished _] rfl (by simp [Event.Places]))
  | beginWatch _ _ =>
    exact hc.push hs he (.refl _) (by rintro rt ⟨⟩) (by simp [Frame.IsTurn])
  | @advance w g s s' event h =>
    have hstage : (Frame.amid s).AtHome w := hc.frames _ List.mem_cons_self
    have hp : w.PlacesAtHome (w.note event) := by cases h <;> exact .note w id
    exact hc.swap hs he hp (fun rt hrt => h.node_eq ▸ hstage rt (h.mask?_eq ▸ hrt))
      (by simp [Frame.IsTurn])
  | keep _ _ _ =>
    exact hc.swap hs he (.of_runtimes rfl [] rfl (by simp)) (by rintro rt ⟨⟩)
      (by simp [Frame.IsTurn])
  | endReport => exact hc.pop hs he (.refl _)
  | watched _ _ _ => exact hc.push hs he (.refl _) trivial (by simp [Frame.IsTurn])
  | prime _ _ =>
    exact hc.swap hs he (.of_runtimes rfl [] rfl (by simp)) trivial (by simp [Frame.IsTurn])
  | skipPass _ _ _ => exact hc.swap hs he (.refl _) trivial (by simp [Frame.IsTurn])
  | @watchPass w g n rt batch e id _ _ _ _ =>
    have hp : w.PlacesAtHome (w.passBegun id) :=
      .of_unasking (fun _ => .passBegun _ _) [.passBegan _] rfl (by simp [Event.Places])
    have hw : Config.Separate ⟨_, .notified n :: .running n rt :: .round rt batch :: g, false⟩ :=
      hc.swap hs he hp trivial (by simp [Frame.IsTurn])
    exact hw.atop trivial (by simp [Frame.IsTurn])
  | watchPostpone _ _ _ =>
    exact hc.swap hs he (.of_runtimes rfl [.passPostponed _] rfl (by simp [Event.Places])) trivial
      (by simp [Frame.IsTurn])
  | @endWatch w g n rt _ =>
    have hp : w.PlacesAtHome (w.ran n rt) :=
      .of_unasking (fun _ => .ran _ _ _) [.finished _] rfl (by simp [Event.Places])
    exact hc.keep hs he hp
      (fun _ hf => .inl (List.mem_cons_of_mem _ (List.mem_cons_of_mem _ hf))) (·.2.2)
  | abandonRun => exact hc.pop hs he (.of_unasking (fun _ => .stopped _ _ _) [] rfl (by simp))
  | @dispose w g n e _ effect _ _ =>
    have hn : w.MadeBy e.runtime n := .inl ⟨e, effect, rfl⟩
    exact hc.push hs he
      (.of_unasking (fun _ => (World.Unasking.disposing _ _).trans (.cleaning _ _ _)) [.cleared _]
        (World.history_disposing ..) (by simp [Event.Places]))
      (.cleaning (hn.mono he)) (by simp [Frame.IsTurn])
  | @retire w g u n _ =>
    have hp : w.PlacesAtHome (w.disposing n) :=
      .of_unasking (fun _ => .disposing _ _) [.cleared _] (World.history_disposing ..)
        (by simp [Event.Places])
    exact hc.stay hs he (hp.trans (.note _ _) (.note _ id))
  | mask _ _ _ =>
    exact hc.push hs he (.of_unasking (fun _ => .pushContext _ _ _) [] rfl (by simp)) trivial
      (by simp [Frame.IsTurn])
  | unmask => exact hc.pop hs he (.of_unasking (fun _ => .popContext _ _) [] rfl (by simp))
  | beginPass _ _ _ _ =>
    exact hc.push hs he (.of_unasking (fun _ => (World.Unasking.note _ id).trans (.passBegun _ _))
      [.passBegan _, .passAsked _] rfl (by simp [Event.Places])) trivial (by simp [Frame.IsTurn])
  | endPass =>
    exact hc.swap hs he (.of_unasking (fun _ => .passEnded _ _ _) [.passEnded _] rfl
      (by simp [Event.Places])) trivial (by simp [Frame.IsTurn])
  | postpone _ _ _ =>
    exact hc.stay hs he (.of_runtimes rfl [.passPostponed _, .passAsked _] rfl
      (by simp [Event.Places]))
  | settle _ => exact hc.pop hs he (.refl _)
  | forgo _ => exact hc.pop hs he (.of_runtimes rfl [] rfl (by simp))
  | @takeUp w g id e _ effect _ =>
    refine hc.swap hs he (.of_runtimes rfl [.scheduled _] rfl (by simp [Event.Places]))
      (fun n hm => ?_) (by simp [Frame.IsTurn])
    obtain rfl := List.mem_singleton.1 hm
    exact .inl ⟨e, effect, rfl⟩
  | passOver _ => exact hc.swap hs he (.refl _) trivial (by simp [Frame.IsTurn])
  | @beginCall w g id rt sub subs _ _ _ =>
    have hw : Config.Separate ⟨_, .passing id rt subs :: g, false⟩ :=
      hc.swap hs he (.of_runtimes rfl [.delivered _ _] rfl (by simp [Event.Places])) trivial
        (by simp [Frame.IsTurn])
    exact hw.atop trivial (by simp [Frame.IsTurn])
  | greet _ _ =>
    exact hc.swap hs he (.of_runtimes rfl [.delivered _ _] rfl (by simp [Event.Places])) trivial
      (by simp [Frame.IsTurn])
  | @subscribe w g id callback _ _ _ _ =>
    have hp : w.PlacesAtHome
        ((w.withSubscription id callback).pushContext (w.store id).runtime none) :=
      .of_unasking (fun _ => (World.Unasking.withSubscription ..).trans (.pushContext _ _ _))
        [.subscribed _] rfl (by simp [Event.Places])
    have hw : Config.Separate ⟨_, .masked (w.store id).runtime :: g, false⟩ :=
      hc.push hs he hp trivial (by simp [Frame.IsTurn])
    exact hw.atop trivial (by simp [Frame.IsTurn])
  | endCall => exact hc.pop hs he (.of_runtimes rfl [.returned _] rfl (by simp [Event.Places]))
  | newRuntime _ => exact hc.stay hs he (.of_unasking (fun _ => .pushRuntime _ _ _) [] rfl (by simp))
  | @beginFlush w g rt _ _ _ _ =>
    have hp := World.PlacesAtHome.modifyRuntime (w.note (.flushBegan rt)) rt
      (f := fun r => { r with flushing := true, flushRequested := false }) fun _ => rfl
    exact hc.push hs he ((World.PlacesAtHome.note w id).trans (.modifyRuntime _ _ fun _ => ⟨rfl, rfl⟩) hp)
      trivial (by simp [Frame.IsTurn])
  | @beginRound w g rt _ =>
    exact hc.push hs he (.emptied w rt id) (fun n hn => (hc.queue rt n hn).mono he)
      (by simp [Frame.IsTurn])
  | @giveUp w s g rt _ frames =>
    rcases frames with rfl | ⟨rfl, -⟩
    · exact hc.pop hs he (.emptied w rt id)
    · exact hc.stay hs he (.emptied w rt id)
  | @skipTurn w g rt n batch _ =>
    have hb : ∀ m ∈ n :: batch, w.MadeBy rt m := hc.frames _ (List.mem_cons_self ..)
    exact hc.swap hs he (.refl _) (fun m hm => hb m (List.mem_cons_of_mem _ hm))
      (by simp [Frame.IsTurn])
  | @beginTurn w g rt n batch _ =>
    have hb : ∀ m ∈ n :: batch, w.MadeBy rt m := hc.frames _ (List.mem_cons_self ..)
    have hw : Config.Separate ⟨w.note (.turnBegan rt n), .round rt batch :: g, false⟩ :=
      hc.swap hs he (.note _ id) (fun m hm => (hb m (List.mem_cons_of_mem _ hm)).mono he)
        (by simp [Frame.IsTurn])
    refine ⟨hw.queue, hw.past, fun f hf => ?_, fun m rt' batch' s hm hg => ?_, hw.turns⟩
    · rcases List.mem_cons.1 hf with rfl | hf
      · trivial
      · exact hw.frames f hf
    · obtain rfl : n = m := by simpa [Frame.IsTurn] using hm
      obtain ⟨rfl, -⟩ := Frame.round.inj (List.cons.inj hg).1
      exact (hb n (List.mem_cons_self ..)).mono he
  | endRound => exact hc.pop hs he (.refl _)
  | @endFlush w g rt u _ =>
    have hp := World.PlacesAtHome.modifyRuntime w rt
      (f := fun r => { r with flushing := false }) fun _ => rfl
    exact hc.pop hs he (hp.trans (.note _ _) (.note _ id))
  | throw _ | exhaust => exact hc.stay hs he (.note _ id)
  | drop _ => exact hc.pop hs he (.refl _)
  | resume => exact hc.stay hs he (.refl _)

theorem Config.start_separate (settings : Settings) (hook : Hook) :
    (Config.start settings hook).Separate where
  queue rt n hn := by
    simp only [Config.start, World.queue, World.runtime, World.start] at hn
    cases rt <;> cases hn
  past e he := (nomatch he)
  frames f hf := (nomatch hf)
  turns := trivial

theorem Reaches.separate {settings : Settings} {hook : Hook} {c : Config}
    (h : Reaches (.start settings hook) c) : c.Separate := by
  induction h with
  | refl => exact Config.start_separate settings hook
  | tail steps step ih =>
    exact step.separate (steps.sane (Config.start_sane settings hook)) steps.mirrored ih

theorem Config.Separate.world {c : Config} (hc : c.Separate) (hs : c.Sane)
    (hm : c.world.Mirrored) : c.world.Separate where
  context _ _ hn := hc.context hs hn
  queue := hc.queue
  readers _ _ _ hn := hc.madeBy_of_reader hm hn
  tracked _ _ _ h := (hc.past _ h).2
  queued _ _ h := hc.past _ h

namespace World

theorem owner_modifyReaders (w : World) (h x : Handle) (f : Readers → Readers) :
    (w.modifyReaders h f).owner x = w.owner x := by
  cases x with
  | object id =>
    cases h with
    | object id' =>
      simp only [modifyReaders, World.owner, object_modifyObject]
      split <;> rfl
    | _ => rfl
  | array id =>
    cases h with
    | array id' =>
      simp only [modifyReaders, World.owner, array_modifyArray]
      split <;> rfl
    | _ => rfl
  | memo n =>
    cases h with
    | memo n' =>
      simp only [modifyReaders, World.owner, memo?_modifyMemo]
      split
      · cases w.memo? n <;> rfl
      · rfl
    | _ => rfl

theorem owner_modifySources (w : World) (n : NodeId) (x : Handle)
    (f : List (Handle × Key) → List (Handle × Key)) : (w.modifySources n f).owner x = w.owner x := by
  cases x with
  | memo m =>
    rw [World.owner, World.owner, memo?_modifySources]
    split
    · cases w.memo? m <;> rfl
    · rfl
  | _ => rfl

theorem owner_note (w : World) (e : Event) (x : Handle) : (w.note e).owner x = w.owner x := by
  cases x <;> rfl

theorem owner_trackedBy (w : World) (n : NodeId) (h x : Handle) (key : Key) :
    (w.trackedBy n h key).owner x = w.owner x := by
  rw [trackedBy]
  split
  · exact owner_note ..
  · rw [owner_modifySources, owner_modifyReaders, owner_note]

/-- `w.KeepsTo rt w'`: what has happened between the two states has happened within the runtime. The
others are as they were, and whatever was queued was made by it. -/
structure KeepsTo (rt : RuntimeId) (w w' : World) : Prop where
  others : ∀ j, j ≠ rt → w'.runtime j = w.runtime j
  hook : (w'.runtime rt).hook = (w.runtime rt).hook
  queue : ∀ n ∈ w'.queue rt, n ∈ w.queue rt ∨ w.MadeBy rt n
  made : ∀ j n, w'.MadeBy j n ↔ w.MadeBy j n
  owner : ∀ h, w'.owner h = w.owner h
  readers : ∀ h, w'.readers h ⊆ w.readers h

namespace KeepsTo

variable {rt : RuntimeId} {w w' w'' : World}

theorem refl (rt : RuntimeId) (w : World) : w.KeepsTo rt w :=
  ⟨fun _ _ => rfl, rfl, fun _ => .inl, fun _ _ => .rfl, fun _ => rfl, fun _ => .refl _⟩

theorem trans (h : w.KeepsTo rt w') (h' : w'.KeepsTo rt w'') : w.KeepsTo rt w'' where
  others j hj := (h'.others j hj).trans (h.others j hj)
  hook := h'.hook.trans h.hook
  queue n hn := (h'.queue n hn).elim (h.queue n) fun hm => .inr ((h.made rt n).1 hm)
  made j n := (h'.made j n).trans (h.made j n)
  owner x := (h'.owner x).trans (h.owner x)
  readers x := List.Subset.trans (h'.readers x) (h.readers x)

theorem of_runtimes (hr : w'.runtimes = w.runtimes) (made : ∀ j n, w'.MadeBy j n ↔ w.MadeBy j n)
    (owner : ∀ h, w'.owner h = w.owner h) (readers : ∀ h, w'.readers h ⊆ w.readers h) :
    w.KeepsTo rt w' := by
  have runtime (j : RuntimeId) : w'.runtime j = w.runtime j := by rw [World.runtime, World.runtime, hr]
  exact ⟨fun j _ => runtime j, by rw [runtime], fun n hn => .inl (by rwa [World.queue, runtime] at hn),
    made, owner, readers⟩

theorem note (w : World) (e : Event) : w.KeepsTo rt (w.note e) :=
  .of_runtimes rfl (fun _ _ => .rfl) (owner_note w e) fun h => by
    rw [readers_note]
    exact .refl _

theorem madeBy_of_sameNodes (h : w.SameNodes w') {j : RuntimeId} {n : NodeId}
    (hn : w.MadeBy j n) : w'.MadeBy j n := by
  rcases hn with ⟨e, hn, rfl⟩ | ⟨m, hn, rfl⟩
  · obtain ⟨e', hn', hb⟩ := h.effect? hn
    exact .inl ⟨e', hn', congrArg (·.runtime) hb⟩
  · obtain ⟨m', hn', hb⟩ := h.memo? hn
    exact .inr ⟨m', hn', congrArg (·.runtime) hb⟩

theorem taken (w : World) (h : Handle) (key : Key) : w.KeepsTo rt (w.taken h key) := by
  have hs := SameNodes.taken w h key
  refine .of_runtimes (runtimes_taken ..)
    (fun j n => ⟨madeBy_of_sameNodes hs.symm, madeBy_of_sameNodes hs⟩)
    (owner_modifyReaders (w.note (.triggered h key)) h · _) fun x p hp => ?_
  rw [World.taken, readers_modifyReaders, readers_note] at hp
  split at hp
  · next hx => exact hx.1 ▸ List.mem_of_mem_filter hp
  · rwa [readers_note] at hp

theorem madeDirty (w : World) (n : NodeId) : w.KeepsTo rt (w.madeDirty n) := by
  refine .of_runtimes rfl (fun j x => ?_) (fun x => ?_) fun x => ?_
  · rw [MadeBy, MadeBy, World.madeDirty, effect?_modifyMemo, memo?_modifyMemo]
    split
    · cases w.memo? x <;> simp
    · rfl
  · cases x with
    | memo m =>
      rw [World.owner, World.owner, World.madeDirty, memo?_modifyMemo]
      split
      · cases w.memo? m <;> rfl
      · rfl
    | _ => rfl
  · rw [World.madeDirty, w.readers_modifyMemo n (f := fun m => { m with dirty := true }) fun _ => rfl]
    exact .refl _

theorem modifyRuntime (w : World) {f : Runtime → Runtime} (hook : ∀ r, (f r).hook = r.hook)
    (queue : ∀ r, ∀ n ∈ (f r).queue, n ∈ r.queue ∨ w.MadeBy rt n) :
    w.KeepsTo rt (w.modifyRuntime rt f) where
  others j hj := by rw [runtime_modifyRuntime, if_neg fun h => hj h.1.symm]
  hook := hook_modifyRuntime w rt rt hook
  queue n hn := by
    rw [World.queue, runtime_modifyRuntime] at hn
    split at hn
    · exact queue _ n hn
    · exact .inl hn
  made _ _ := .rfl
  owner x := by cases x <;> rfl
  readers x := by cases x <;> exact .refl _

theorem requested (w : World) : w.KeepsTo rt (w.requested rt) := by
  have h : w.KeepsTo rt
      ((w.modifyRuntime rt fun r => { r with flushRequested := true }).note (.requested rt)) := by
    refine trans ?_ (note _ _)
    exact modifyRuntime w (fun _ => rfl) fun _ _ => .inl
  rw [World.requested]
  split
  · exact h
  all_goals exact h.trans (.of_runtimes rfl (fun _ _ => .rfl) (fun x => by cases x <;> rfl)
    fun x => by cases x <;> exact .refl _)

theorem queuedIn (w : World) {n : NodeId} (hn : w.MadeBy rt n) :
    w.KeepsTo rt (w.queuedIn rt n) := by
  have h : w.KeepsTo rt
      ((w.note (.queued rt n)).modifyRuntime rt fun r => { r with queue := r.queue ++ [n] }) := by
    refine (note w _).trans (modifyRuntime _ (fun _ => rfl) fun r m hm => ?_)
    rcases List.mem_append.1 hm with hm | hm
    · exact .inl hm
    · exact .inr (List.mem_singleton.1 hm ▸ hn)
  rw [World.queuedIn]
  split
  · exact h
  · exact h.trans (requested _)

end KeepsTo

def ReadersAtHome (w : World) : Prop :=
  ∀ h key n, (key, n) ∈ w.readers h → w.MadeBy (w.owner h) n

theorem ReadersAtHome.mono {w w' : World} {rt : RuntimeId} (h : w.ReadersAtHome)
    (hk : w.KeepsTo rt w') : w'.ReadersAtHome := fun x key n hn =>
  (hk.made _ n).2 (hk.owner x ▸ h x key n (hk.readers x hn))

end World

/-- The action has an effect on one runtime only, unless the hook of that runtime flushes. -/
def Act.KeepsTo (rt : RuntimeId) (act : Act Unit) (w : World) : Prop :=
  (w.runtime rt).hook ≠ .flush → w.ReadersAtHome → w.KeepsTo rt (act.run.run w).2

section KeepsTo

variable {rt : RuntimeId} {w : World}

theorem Act.KeepsTo.forM {f : NodeId → Act Unit} {ns : List NodeId}
    (hns : ∀ n ∈ ns, w.MadeBy rt n)
    (h : ∀ n w, w.MadeBy rt n → (f n).KeepsTo rt w) : (ns.forM f).KeepsTo rt w := by
  induction ns generalizing w with
  | nil => exact fun _ _ => .refl rt w
  | cons n ns ih =>
    intro hook home
    have hn := h n w (hns n (List.mem_cons_self ..)) hook home
    have hrun : ((n :: ns).forM f).run.run w =
        ((f n >>= fun _ => ns.forM f : Act Unit)).run.run w := rfl
    rw [hrun, Act.run_bind]
    generalize (f n).run.run w = o at hn
    rcases o with ⟨i | a, w'⟩
    · exact hn
    · refine hn.trans (ih (fun m hm => ?_) (hn.hook ▸ hook) (home.mono hn))
      exact (hn.made rt m).2 (hns m (List.mem_cons_of_mem _ hm))

theorem keepsTo_enqueue (k : Kernel) {n : NodeId} (hn : w.MadeBy rt n) :
    (enqueue k rt n).KeepsTo rt w := by
  intro hook _
  by_cases hq : n ∈ (w.runtime rt).queue
  · rw [run_enqueue_of_mem k hq]
    exact .refl rt w
  · rcases run_enqueue_of_not_mem k hq with h | ⟨hflush, -⟩
    · rw [h]
      exact .queuedIn w hn
    · exact absurd hflush hook

/-- Who has read a memo that is told was made by the runtime, as the memo was. -/
theorem keepsTo_notifyNode {k : Kernel}
    (hk : ∀ h key w, w.owner h = rt → (k.passOn rt h key).KeepsTo rt w) {n : NodeId}
    (hn : w.MadeBy rt n) : (notifyNode k rt n).KeepsTo rt w := by
  intro hook home
  rcases hnode : w.nodes[n]? with _ | (e | m)
  · simp only [notifyNode, Act.run_get_bind, hnode]
    exact .refl rt w
  · simp only [notifyNode, Act.run_get_bind, hnode]
    exact keepsTo_enqueue k hn hook home
  · have hd : w.KeepsTo rt (w.madeDirty n) := .madeDirty w n
    have hm : w.memo? n = some m := by rw [World.memo?, hnode]
    simp only [notifyNode, Act.run_get_bind, hnode, Act.run_modify_bind]
    split
    · have owner : (w.madeDirty n).owner (.memo n) = rt := by
        rw [hd.owner, w.owner_memo hm, hn.memo_runtime hm]
      exact hd.trans (hk _ _ _ owner (hd.hook ▸ hook) (home.mono hd))
    · exact hd

theorem keepsTo_trigger {k : Kernel}
    (hk : ∀ h key w, w.owner h = rt → (k.passOn rt h key).KeepsTo rt w) {h : Handle}
    (owner : w.owner h = rt) (key : Key) : (trigger k rt h key).KeepsTo rt w := by
  intro hook home
  have hrun : (trigger k rt h key).run.run w =
      (((w.readers h).on key).forM fun n => do
        if !(← get).isDisposed n then notifyNode k rt n : Act Unit).run.run (w.taken h key) := by
    cases h <;> rfl
  have ht : w.KeepsTo rt (w.taken h key) := .taken w h key
  rw [hrun]
  refine ht.trans (Act.KeepsTo.forM (fun n hn => ?_) (fun n w hn hook home => ?_) (ht.hook ▸ hook)
    (home.mono ht))
  · exact (ht.made rt n).2 (owner ▸ home h key n (Readers.mem_on.1 hn))
  · rw [Act.run_get_bind]
    split
    · exact keepsTo_notifyNode hk hn hook home
    · exact .refl rt w

theorem keepsTo_passOn (depth : Nat) (rt : RuntimeId) (h : Handle) (key : Key) (w : World)
    (owner : w.owner h = rt) : ((kernel depth).passOn rt h key).KeepsTo rt w := by
  induction depth generalizing h key w with
  | zero => exact fun _ _ => .note w .exhausted
  | succ depth ih => exact keepsTo_trigger ih owner key

end KeepsTo

namespace World

def withHook (w : World) (rt : RuntimeId) (hook : Hook) : World :=
  w.modifyRuntime rt fun r => { r with hook := hook }

theorem hook_withHook_ne_flush (w : World) (rt : RuntimeId) {hook : Hook} (h : hook ≠ .flush) :
    ((w.withHook rt hook).runtime rt).hook ≠ .flush := by
  rw [withHook, runtime_modifyRuntime]
  split
  · exact h
  · next hrt =>
    have hnone : w.runtimes[rt]? = none := Array.getElem?_eq_none (by simpa using hrt)
    rw [runtime, hnone]
    exact fun h => by cases h

/-- A trigger, apart from the flush that the hook may answer it with, queues only what the runtime
has made, and only there. -/
theorem Separate.trigger {w : World} (hw : w.Separate) (depth : Nat) (h : Handle) (key : Key)
    {hook : Hook} (hhook : hook ≠ .flush) :
    let rt := w.owner h
    let w' := ((Reactivity.trigger (kernel depth) rt h key).run.run (w.withHook rt hook)).2
    (∀ j, j ≠ rt → w'.runtime j = w.runtime j) ∧ ∀ n ∈ w'.queue rt, w.MadeBy rt n := by
  intro rt w'
  have home : (w.withHook rt hook).ReadersAtHome := fun x => by
    cases x with
    | object id => exact hw.readers (.object id)
    | array id => exact hw.readers (.array id)
    | memo m => exact hw.readers (.memo m)
  have owner : (w.withHook rt hook).owner h = rt := by cases h <;> rfl
  have hk : (w.withHook rt hook).KeepsTo rt w' :=
    keepsTo_trigger (keepsTo_passOn depth rt) owner key (w.hook_withHook_ne_flush rt hhook) home
  refine ⟨fun j hj => ?_, fun n hn => ?_⟩
  · rw [hk.others j hj, withHook, runtime_modifyRuntime, if_neg fun h => hj h.1.symm]
  · rcases hk.queue n hn with hq | hm
    · rw [withHook, queue_modifyRuntime _ _ _ (by intro r; rfl)] at hq
      exact hw.queue rt n hq
    · exact hm

theorem Separate.track {w : World} (hw : w.Separate) (h : Handle) (key : Key) :
    ((Reactivity.track (w.owner h) h key).run w).2.ReadersAtHome := by
  rw [run_track, trackedIn]
  split
  · exact hw.readers
  · next n hn =>
    have hhome : w.MadeBy (w.owner h) n :=
      hw.context _ n (List.mem_of_mem_head? (Option.join_eq_some_iff.1 hn))
    intro x k m hm
    have hnodes : w.SameNodes (w.trackedBy n h key) := .trackedBy w n h key
    rw [owner_trackedBy]
    refine KeepsTo.madeBy_of_sameNodes hnodes ?_
    rw [trackedBy] at hm
    split at hm
    · exact hw.readers x k m (by rwa [readers_note] at hm)
    · rw [readers_modifySources, readers_modifyReaders, readers_note, readers_note] at hm
      split at hm
      · next hx =>
        rcases List.mem_append.1 hm with hm | hm
        · exact hx.1 ▸ hw.readers h k m hm
        · obtain ⟨-, rfl⟩ := Prod.mk.inj (List.mem_singleton.1 hm)
          exact hx.1 ▸ hhome
      · exact hw.readers x k m hm

end World

/-- Runtimes are isolated, whatever a program does. What a runtime has in its context, in its queue
or registered on its things was made by it. So a trigger, apart from the flush that the hook may
answer it with, queues only what the runtime has made, and only there; and a read registers only what
the runtime has made. -/
theorem runtimes_separate (settings : Settings) (hook : Hook) (depth : Nat) (es : List Expr) :
    Throughout settings hook depth es fun w => w.Separate ∧
      (∀ nested h key answer, answer ≠ .flush →
        let rt := w.owner h
        let w' := ((trigger (kernel nested) rt h key).run.run (w.withHook rt answer)).2
        (∀ j, j ≠ rt → w'.runtime j = w.runtime j) ∧ ∀ n ∈ w'.queue rt, w.MadeBy rt n) ∧
      ∀ h key, ((track (w.owner h) h key).run w).2.ReadersAtHome := by
  refine throughout_of_reaches (fun {c} hreach _ _ => ?_) depth es
  have hw := hreach.separate.world (hreach.sane (Config.start_sane settings hook)) hreach.mirrored
  exact ⟨hw, fun nested h key answer ha => hw.trigger nested h key ha, hw.track⟩

end Reactivity
