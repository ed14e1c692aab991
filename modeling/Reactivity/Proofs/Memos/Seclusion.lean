import Reactivity.Proofs.Updates.Settled

namespace Reactivity

def Frame.isReading : Frame → Bool
  | .reading .. | .computing .. => true
  | _ => false

def Bare (g : List Frame) : Prop :=
  ∀ f ∈ g, f.isReading = false

def Secluded : List Frame → Prop
  | [] => True
  | f :: g => if f.isReading then Secluded g else Bare g

section Secluded

variable {f : Frame} {g : List Frame}

@[simp] theorem bare_nil : Bare [] :=
  fun _ hf => nomatch hf

@[simp] theorem bare_cons : Bare (f :: g) ↔ f.isReading = false ∧ Bare g :=
  List.forall_mem_cons

theorem Bare.secluded (h : Bare g) : Secluded g := by
  cases g with
  | nil => trivial
  | cons f g =>
    obtain ⟨hf, hg⟩ := bare_cons.1 h
    rw [Secluded, hf]
    exact hg

theorem Secluded.bare_of_head (h : Secluded (f :: g)) (hf : f.isReading = false) :
    Bare (f :: g) := by
  rw [Secluded, hf] at h
  exact bare_cons.2 ⟨hf, h⟩

theorem Secluded.bare_of_code (h : Secluded g) (code : AtCode g)
    (other : ∀ n rt start s, g ≠ .computing n rt start :: s) : Bare g := by
  cases g with
  | nil => exact bare_nil
  | cons f g =>
    cases f with
    | reading => exact code.elim
    | computing n rt start => exact absurd rfl (other n rt start g)
    | _ => exact h.bare_of_head rfl

theorem Secluded.bare {w : World} (h : Secluded g) (code : AtCode g) (free : Free w g)
    (pure : w.MemosPure) (valid : ∀ f ∈ g, f.Valid w) : Bare g := by
  apply h.bare_of_code code
  rintro n rt start s rfl
  obtain ⟨-, hn⟩ := valid _ (List.mem_cons_self ..)
  obtain ⟨m, hm⟩ := Option.isSome_iff_exists.1 hn
  exact absurd (pure.bodies n m hm) (Bool.eq_false_iff.1 (free m hm))

end Secluded

/-- The event is neither the start nor the end of the function of a memo, and no read of one. What is
read of a container is what it shows, and nothing is thrown while a memo is being read. -/
def Event.Harmless (c : Config) : Event → Prop
  | .started n | .finished n => c.world.memo? n = none
  | .saw _ read r => (∀ n, read ≠ .memo n) ∧ read.shown c.world = some r
  | .got .. => False
  | .threw _ => Bare c.stack
  | _ => True

/-- `w.SparesMemos c w'`: all that happens is harmless where the program is at `c`. Memos are as clean as
before, and keep their results. New ones are dirty. -/
structure World.SparesMemos (c : Config) (w w' : World) : Prop where
  past : ∃ new, w'.history = new ++ w.history ∧ ∀ e ∈ new, e.Harmless c
  kept : ∀ n m, w.memo? n = some m →
    ∃ m', w'.memo? n = some m' ∧ m'.dirty = m.dirty ∧ m'.result = m.result
  new : ∀ n m, w'.memo? n = some m → w.memo? n = none → m.dirty ∧ m.result = none

namespace World.SparesMemos

variable {c : Config} {w w' w'' : World}

theorem of_memo? (hm : ∀ n, w'.memo? n = w.memo? n) (hh : w'.history = w.history) :
    w.SparesMemos c w' where
  past := ⟨[], hh, fun _ he => nomatch he⟩
  kept n m h := ⟨m, (hm n).trans h, rfl, rfl⟩
  new n m h hn := by
    rw [hm n, hn] at h
    cases h

theorem of_nodes (hn : w'.nodes = w.nodes) (hh : w'.history = w.history) : w.SparesMemos c w' :=
  of_memo? (fun n => by rw [memo?, memo?, hn]) hh

theorem refl (w : World) : w.SparesMemos c w :=
  of_nodes rfl rfl

theorem trans (h : w.SparesMemos c w') (h' : w'.SparesMemos c w'') : w.SparesMemos c w'' where
  past := by
    obtain ⟨new, hn, he⟩ := h.past
    obtain ⟨new', hn', he'⟩ := h'.past
    refine ⟨new' ++ new, by rw [hn', hn, List.append_assoc], fun e hmem => ?_⟩
    exact (List.mem_append.1 hmem).elim (he' e) (he e)
  kept n m hm := by
    obtain ⟨m', hm', hd, hr⟩ := h.kept n m hm
    obtain ⟨m'', hm'', hd', hr'⟩ := h'.kept n m' hm'
    exact ⟨m'', hm'', hd'.trans hd, hr'.trans hr⟩
  new n m'' hm'' hnone := by
    cases hm' : w'.memo? n with
    | none => exact h'.new n m'' hm'' hm'
    | some m' =>
      obtain ⟨hd, hr⟩ := h.new n m' hm' hnone
      obtain ⟨m₁, hm₁, hd', hr'⟩ := h'.kept n m' hm'
      obtain rfl : m'' = m₁ := Option.some.inj (hm''.symm.trans hm₁)
      exact ⟨hd' ▸ hd, hr'.trans hr⟩

theorem note (w : World) {e : Event} (h : e.Harmless c) : w.SparesMemos c (w.note e) where
  past := ⟨[e], rfl, fun _ he => List.mem_singleton.1 he ▸ h⟩
  kept _ m hm := ⟨m, hm, rfl, rfl⟩
  new n m hm hn := by
    have hm : w.memo? n = some m := hm
    rw [hn] at hm
    cases hm

theorem of_sameNodes (h : w.SameNodes w')
    (past : ∃ new, w'.history = new ++ w.history ∧ ∀ e ∈ new, e.Harmless c) : w.SparesMemos c w' where
  past := past
  kept n m hm := by
    obtain ⟨m', hm', hb⟩ := h.memo? hm
    exact ⟨m', hm', by rw [Memo.of_bare hb], by rw [Memo.of_bare hb]⟩
  new n m hm hn := by
    have hsome := h.2 n
    rw [hm, hn] at hsome
    cases hsome

theorem trackedBy (w : World) (n : NodeId) (h : Handle) (key : Key) :
    w.SparesMemos c (w.trackedBy n h key) :=
  of_sameNodes (.trackedBy w n h key) ⟨[.tracked n h key], w.history_trackedBy n h key,
    fun _ he => List.mem_singleton.1 he ▸ trivial⟩

theorem trackedIn (w : World) (rt : RuntimeId) (h : Handle) (key : Key) :
    w.SparesMemos c (w.trackedIn rt h key) := by
  rw [World.trackedIn]
  split
  · exact refl w
  · exact trackedBy w _ h key

theorem clearedOf (w : World) (n : NodeId) : w.SparesMemos c (w.clearedOf n) :=
  of_sameNodes (.clearedOf w n) ⟨[.cleared n], w.history_clearedOf n,
    fun _ he => List.mem_singleton.1 he ▸ trivial⟩

theorem taken (w : World) (h : Handle) (key : Key) : w.SparesMemos c (w.taken h key) :=
  of_sameNodes (.taken w h key) ⟨[.triggered h key], w.history_taken h key,
    fun _ he => List.mem_singleton.1 he ▸ trivial⟩

theorem modifyEffect (w : World) (n : NodeId) (f : Effect → Effect) :
    w.SparesMemos c (w.modifyEffect n f) :=
  of_memo? (fun m => w.memo?_modifyEffect n m f) rfl

theorem pushNode (w : World) {node : Node}
    (h : ∀ m, node = .memo m → m.dirty ∧ m.result = none) : w.SparesMemos c (w.pushNode node) where
  past := ⟨[], rfl, fun _ he => nomatch he⟩
  kept n m hm := by
    refine ⟨m, ?_, rfl, rfl⟩
    rw [memo?_pushNode, if_neg (Nat.ne_of_lt (lt_of_memo? (Option.isSome_of_eq_some hm))), hm]
  new n m hm hn := by
    rw [memo?_pushNode] at hm
    split at hm
    · cases node with
      | effect e => cases hm
      | memo m' =>
        obtain rfl := Option.some.inj hm
        exact h _ rfl
    · rw [hn] at hm
      cases hm

theorem queuedIn (w : World) (rt : RuntimeId) (n : NodeId) : w.SparesMemos c (w.queuedIn rt n) := by
  have hm (m : NodeId) : (w.queuedIn rt n).memo? m = w.memo? m := by
    rw [memo?, memo?, nodes_queuedIn]
  refine ⟨?_, fun m x hx => ⟨x, (hm m).trans hx, rfl, rfl⟩, fun m x hx hn => ?_⟩
  · rcases w.history_queuedIn rt n with hh | hh
    · exact ⟨[.queued rt n], hh, by simp [Event.Harmless]⟩
    · exact ⟨[.requested rt, .queued rt n], hh, by simp [Event.Harmless]⟩
  · rw [hm m, hn] at hx
    cases hx

theorem madeDirty {n : NodeId} {m : Memo} (hm : w.memo? n = some m) (hd : m.dirty) :
    w.SparesMemos c (w.madeDirty n) := by
  refine of_memo? (fun k => ?_) rfl
  rw [World.madeDirty, memo?_modifyMemo]
  split
  · next hnk =>
    subst hnk
    rw [hm, Option.map_some, ← hd]
  · rfl

theorem running (w : World) {n : NodeId} (hn : c.world.memo? n = none) (rt : RuntimeId) :
    w.SparesMemos c (w.running n rt) := by
  refine (clearedOf w n).trans ?_
  have hpush : (w.clearedOf n).SparesMemos c ((w.clearedOf n).pushContext rt (some n)) :=
    of_nodes rfl rfl
  exact (hpush.trans (modifyEffect _ n fun e => { e with running := true })).trans (note _ hn)

theorem stopped (w : World) (n : NodeId) (rt : RuntimeId) : w.SparesMemos c (w.stopped n rt) :=
  (modifyEffect w n fun e => { e with running := false }).trans (of_nodes rfl rfl)

theorem ran (w : World) {n : NodeId} (hn : c.world.memo? n = none) (rt : RuntimeId) :
    w.SparesMemos c (w.ran n rt) := by
  have h₁ : w.SparesMemos c (w.modifyEffect n fun e => { e with running := false }) :=
    modifyEffect w n _
  exact ((h₁.trans (note _ (e := .finished n) hn)).trans (modifyEffect _ n _)).trans (of_nodes rfl rfl)

theorem disposing (w : World) (n : NodeId) : w.SparesMemos c (w.disposing n) :=
  (modifyEffect w n _).trans (clearedOf _ n)

theorem withStore (w : World) (state : ObjectId) : w.SparesMemos c (w.withStore state) := by
  rw [World.withStore]
  refine (of_nodes rfl rfl : w.SparesMemos c { w with
    stores := w.stores.push
      { runtime := (w.object state).runtime, state := state, watcher := w.nodes.size } }).trans
    (pushNode _ ?_)
  rintro m ⟨⟩

end World.SparesMemos

theorem Aside.sparesMemos {w w' : World} (h : Aside w w') (c : Config) : w.SparesMemos c w' := by
  have of_note {e : Event} (he : e.Harmless c) {w' : World} (hn : w'.nodes = w.nodes)
      (hh : w'.history = e :: w.history) : w.SparesMemos c w' :=
    (World.SparesMemos.note w he).trans (.of_nodes hn hh)
  cases h with
  | bind name | unbind name => exact of_note (e := .bound name) trivial rfl rfl
  | cancel sub =>
    obtain ⟨_, _, h⟩ := w.cancelled_eq sub
    exact h ▸ of_note (e := .unsubscribed sub) trivial rfl rfl
  | log | clearLog | external | task | hold | release => exact .of_nodes rfl rfl
  | _ => exact .note w trivial

theorem Edit.sparesMemos {w w' : World} {write : Write} (h : Edit w write w') (c : Config) :
    w.SparesMemos c w' := by
  have hn : w.SparesMemos c (w.note (.wrote write)) := .note w trivial
  cases h <;> exact hn.trans (.of_nodes rfl rfl)

/-- `c.Passes c'`: a step that has nothing to do with memos. -/
structure Config.Passes (c c' : Config) : Prop where
  world : c.world.SparesMemos c c'.world
  stack : c'.stack = c.stack ∨ Bare c.stack ∧ Bare c'.stack
  unwinding : c'.unwinding → c.unwinding ∨ Bare c.stack
  /-- A change whose readers are to be told has been noted. -/
  triggers : c'.world.history = c.world.history → (∀ f ∈ c.stack, ¬ f.Triggers) →
    ∀ f ∈ c'.stack, ¬ f.Triggers

namespace Config.Passes

variable {w w' : World} {f f' : Frame} {g g' : List Frame} {u u' : Bool}

theorem stay (h : w.SparesMemos ⟨w, g, u⟩ w') (hu : u' → u ∨ Bare g) : Config.Passes ⟨w, g, u⟩ ⟨w', g, u'⟩ :=
  ⟨h, .inl rfl, hu, fun _ => id⟩

theorem pop (h : w.SparesMemos ⟨w, f :: g, u⟩ w') (bare : Bare (f :: g)) :
    Config.Passes ⟨w, f :: g, u⟩ ⟨w', g, u'⟩ :=
  ⟨h, .inr ⟨bare, (bare_cons.1 bare).2⟩, fun _ => .inr bare,
    fun _ ht x hx => ht x (List.mem_cons_of_mem _ hx)⟩

theorem push (h : w.SparesMemos ⟨w, g, u⟩ w') (bare : Bare g) (hf : f.isReading = false) (ht : ¬ f.Triggers) :
    Config.Passes ⟨w, g, u⟩ ⟨w', f :: g, u'⟩ :=
  ⟨h, .inr ⟨bare, bare_cons.2 ⟨hf, bare⟩⟩, fun _ => .inr bare,
    fun _ hg => List.forall_mem_cons.2 ⟨ht, hg⟩⟩

theorem noted (h : w.SparesMemos ⟨w, g, u⟩ w') (bare : Bare g) (bare' : Bare g')
    (hh : w'.history.length ≠ w.history.length) : Config.Passes ⟨w, g, u⟩ ⟨w', g', u'⟩ :=
  ⟨h, .inr ⟨bare, bare'⟩, fun _ => .inr bare, fun he => absurd (congrArg List.length he) hh⟩

theorem telling (h : w.SparesMemos ⟨w, f :: g, u⟩ w') (bare : Bare (f :: g)) (ht : f.Triggers)
    (hf' : f'.isReading = false) : Config.Passes ⟨w, f :: g, u⟩ ⟨w', f' :: g, u'⟩ :=
  ⟨h, .inr ⟨bare, bare_cons.2 ⟨hf', (bare_cons.1 bare).2⟩⟩, fun _ => .inr bare,
    fun _ hg => absurd ht (hg f (List.mem_cons_self ..))⟩

theorem exchange (h : w.SparesMemos ⟨w, f :: g, u⟩ w') (bare : Bare (f :: g)) (hf' : f'.isReading = false)
    (ht : ¬ f'.Triggers) : Config.Passes ⟨w, f :: g, u⟩ ⟨w', f' :: g, u'⟩ :=
  ⟨h, .inr ⟨bare, bare_cons.2 ⟨hf', (bare_cons.1 bare).2⟩⟩, fun _ => .inr bare,
    fun _ hg => List.forall_mem_cons.2 ⟨ht, (List.forall_mem_cons.1 hg).2⟩⟩

end Config.Passes

/-- The steps that have to do with memos. -/
inductive Config.Recalls : Config → Config → Prop
  /-- A clean memo becomes dirty while no memo is being read. -/
  | dirties {w w₁ : World} {g g' : List Frame} {n : NodeId} (bare : Bare g) (bare' : Bare g')
    (past : w₁ = w ∧ (∃ f ∈ g, f.Triggers) ∨ w₁ = w.note (.dirtied n)) :
    Recalls ⟨w, g, false⟩ ⟨w₁.madeDirty n, g', false⟩
  | reuses {w : World} {g : List Frame} {n : NodeId} {m : Memo} {r : Result}
    (memo : w.memo? n = some m) (clean : m.dirty = false) (result : m.result = some r) :
    Recalls ⟨w, g, false⟩
      ⟨(w.trackedIn m.runtime (.memo n) .value).note (.recalled n),
        .reading (w.currentReader m.runtime) n :: g, false⟩
  | begins {w : World} {g : List Frame} {n : NodeId} {m : Memo} (memo : w.memo? n = some m) :
    Recalls ⟨w, g, false⟩
      ⟨(w.trackedIn m.runtime (.memo n) .value).computing n m.runtime,
        .computing n m.runtime
            ((w.trackedIn m.runtime (.memo n) .value).computing n m.runtime).history ::
          .reading (w.currentReader m.runtime) n :: g, false⟩
  | ends {w : World} {g : List Frame} {n : NodeId} {rt : RuntimeId} {start since : List Event}
    {r : Result} (history : w.history = since ++ start)
    (follows : ∀ m, w.memo? n = some m → m.body.body.isPure → w.runtimes.size = 1 →
      m.body.body.Follows ⟨m.body.runtime, []⟩ n since w.lookup r) :
    Recalls ⟨w, .computing n rt start :: g, false⟩ ⟨w.computed n rt r, g, false⟩
  | gets {w : World} {g : List Frame} {n : NodeId} {reader : Option NodeId} {m : Memo}
    {r : Result} (memo : w.memo? n = some m) (result : m.result = some r) :
    Recalls ⟨w, .reading reader n :: g, false⟩ ⟨w.gotBy reader n r, g, false⟩

theorem Stage.Advance.harmless {s s' : Stage} {e : Event} (h : s.Advance e s') (c : Config) :
    e.Harmless c := by
  cases h <;> trivial

/-- Where all memos are pure, a step has nothing to do with memos, or is one of those that have. -/
theorem Step.passes_or_recalls {c c' : Config} (h : Step c c') (hc : c.Sane)
    (secluded : Secluded c.stack) (unwinding : c.unwinding → Bare c.stack)
    (opened : ∀ n ∈ actives c.stack, Open n c.world.history)
    (hp : c'.world.MemosPure) (hr : c'.world.Regular) : c.Passes c' ∨ c.Recalls c' := by
  have pure : c.world.MemosPure := hp.of_extends h.extends
  have bare {w : World} {g : List Frame} {u : Bool} (hc : Config.Sane ⟨w, g, u⟩)
      (hs : Secluded g) (hp : w.MemosPure) (code : AtCode g) (free : Free w g) : Bare g :=
    hs.bare code free hp hc.frames
  have he := h.extends
  -- What does not touch the nodes, and notes one thing that is harmless.
  have noting {c : Config} {w w' : World} {e : Event} (harmless : e.Harmless c)
      (hn : w'.nodes = w.nodes) (hh : w'.history = e :: w.history) : w.SparesMemos c w' :=
    (World.SparesMemos.note w harmless).trans (.of_nodes hn hh)
  cases h with
  | aside h => exact .inl (.stay (h.sparesMemos _) .inl)
  -- Reading
  | track _ _ _ _ _ => exact .inl (.stay (.trackedBy ..) .inl)
  | see _ _ _ _ direct _ shown => exact .inl (.stay (.note _ ⟨direct, shown⟩) .inl)
  | @newObject w g rt properties _ _ _ =>
    exact .inl (.stay (noting (e := .wrapped (properties.filterMap (·.2.value?))) trivial rfl rfl) .inl)
  | @newArray w g rt cells _ _ _ =>
    exact .inl (.stay (noting (e := .wrapped (cells.filterMap Cell.value?)) trivial rfl rfl) .inl)
  | resolveObject _ _ => exact .inl (.stay (.of_nodes rfl rfl) .inl)
  | resolveArray _ _ => exact .inl (.stay (.of_nodes rfl rfl) .inl)
  -- Writing
  | write code free _ edit =>
    have hb := bare hc secluded pure code free
    exact .inl (.noted (edit.sparesMemos _) hb (bare_cons.2 ⟨rfl, hb⟩) (by simp [edit.history]))
  | @beginChange w g id before code free _ _ =>
    exact .inl (.push (.note _ (e := .changeBegan id) trivial) (bare hc secluded pure code free)
      rfl fun h => h)
  | @endChange w g rt id before after _ _ =>
    have hb := secluded.bare_of_head rfl
    refine .inl (.noted ?_ hb (bare_cons.2 ⟨rfl, (bare_cons.1 hb).2⟩)
      (by simp only [World.history_modifyArray, World.history_note, List.length_cons]; omega))
    exact ((World.SparesMemos.note w (e := .changeEnded id) trivial).trans
      (.note _ (e := .wrote (.items id before after)) trivial)).trans (.of_nodes rfl rfl)
  | @abandonChange w g id before =>
    exact .inl (.pop (.note _ (e := .changeEnded id) trivial) (secluded.bare_of_head rfl))
  -- Triggering
  | @trigger w g rt h key keys =>
    have hb := secluded.bare_of_head rfl
    refine .inl (.noted (.taken ..) hb ?_ (by simp))
    exact bare_cons.2 ⟨rfl, bare_cons.2 ⟨rfl, (bare_cons.1 hb).2⟩⟩
  | written | told => exact .inl (.pop (.refl _) (secluded.bare_of_head rfl))
  | tellDisposed _ => exact .inl (.telling (.refl _) (secluded.bare_of_head rfl) trivial rfl)
  | tellQueued _ _ => exact .inl (.telling (.refl _) (secluded.bare_of_head rfl) trivial rfl)
  | tellEffect _ _ => exact .inl (.telling (.queuedIn ..) (secluded.bare_of_head rfl) trivial rfl)
  | tellDirty memo dirty =>
    exact .inl (.telling (.madeDirty memo dirty) (secluded.bare_of_head rfl) trivial rfl)
  | tellClean =>
    have hb := secluded.bare_of_head rfl
    refine .inr (.dirties hb ?_ (.inl ⟨rfl, _, List.mem_cons_self .., trivial⟩))
    exact bare_cons.2 ⟨rfl, bare_cons.2 ⟨rfl, (bare_cons.1 hb).2⟩⟩
  | @schedule w g n =>
    exact .inl (.stay ((World.SparesMemos.note w (e := .scheduled n) trivial).trans (.queuedIn ..)) .inl)
  | @markDirty w g n m _ memo dirty =>
    refine .inl (.stay ((World.SparesMemos.note w (e := .dirtied n) trivial).trans ?_) .inl)
    exact .madeDirty memo dirty
  | markClean code free _ _ =>
    have hb := bare hc secluded pure code free
    exact .inr (.dirties hb (bare_cons.2 ⟨rfl, hb⟩) (.inr rfl))
  -- Memos
  | newMemo _ _ _ =>
    refine .inl (.stay (.pushNode _ ?_) .inl)
    rintro m ⟨⟩
    exact ⟨rfl, rfl⟩
  | reuse _ memo clean result => exact .inr (.reuses memo clean result)
  | beginCompute _ memo _ => exact .inr (.begins memo)
  | endCompute _ history follows => exact .inr (.ends history follows)
  | abandonCompute => exact absurd (unwinding rfl _ (List.mem_cons_self ..)) nofun
  | endReading memo result => exact .inr (.gets memo result)
  -- Effects
  | newEffect code free _ _ =>
    exact .inl (.push (.pushNode _ nofun) (bare hc secluded pure code free) rfl id)
  | newStore code free _ =>
    exact .inl (.push (.withStore ..) (bare hc secluded pure code free) rfl id)
  | @addCleanup w g rt n e c =>
    refine .inl (.stay ((World.SparesMemos.note w (e := .cleanupAdded n c) trivial).trans ?_) .inl)
    exact .modifyEffect ..
  | beginCleaning _ =>
    exact .inl (.push ((World.SparesMemos.modifyEffect ..).trans (.of_nodes rfl rfl))
      (secluded.bare_of_head rfl) rfl id)
  | endCleaning =>
    exact .inl (.pop (noting (e := .cleanedUp _) trivial rfl rfl) (secluded.bare_of_head rfl))
  | abandonCleaning _ => exact .inl (.pop (.of_nodes rfl rfl) (secluded.bare_of_head rfl))
  | skipPending _ => exact .inl (.pop (.refl _) (secluded.bare_of_head rfl))
  | clearRunning _ _ => exact .inl (.pop (.clearedOf ..) (secluded.bare_of_head rfl))
  | @beginRun w g n rt f e effect _ _ turn _ =>
    have hn := World.memo?_eq_none_of_effect? (Option.isSome_of_eq_some effect)
    have hb : Bare (f :: g) := secluded.bare_of_head (by rcases turn with ⟨rfl, -⟩ | ⟨rfl, -⟩ <;> rfl)
    exact .inl (.exchange (.running w hn rt) hb rfl id)
  | @endRun w g n rt =>
    obtain ⟨-, he⟩ := hc.frames _ (List.mem_cons_self ..)
    have hn := World.memo?_eq_none_of_effect? he
    exact .inl (.pop (.ran w hn rt) (secluded.bare_of_head rfl))
  | beginWatch _ _ => exact .inl (.push (.refl _) (secluded.bare_of_head rfl) rfl id)
  | advance h =>
    exact .inl (.exchange (.note _ (h.harmless _)) (secluded.bare_of_head rfl) rfl id)
  | keep _ _ _ => exact .inl (.exchange (.modifyEffect ..) (secluded.bare_of_head rfl) rfl id)
  | endReport => exact .inl (.pop (.refl _) (secluded.bare_of_head rfl))
  | watched _ _ _ => exact .inl (.push (.refl _) (secluded.bare_of_head rfl) rfl id)
  | prime _ _ => exact .inl (.exchange (.modifyEffect ..) (secluded.bare_of_head rfl) rfl id)
  | skipPass _ _ _ => exact .inl (.exchange (.refl _) (secluded.bare_of_head rfl) rfl id)
  | @watchPass w g n rt batch e id =>
    have hb := secluded.bare_of_head rfl
    refine .inl (.noted (noting (e := .passBegan id) trivial rfl rfl) hb ?_ (by simp))
    exact bare_cons.2 ⟨rfl, bare_cons.2 ⟨rfl, (bare_cons.1 hb).2⟩⟩
  | watchPostpone _ _ _ =>
    exact .inl (.exchange (noting (e := .passPostponed _) trivial rfl rfl) (secluded.bare_of_head rfl)
      rfl id)
  | @endWatch w g n rt =>
    obtain ⟨-, he⟩ := hc.frames _ (List.mem_cons_of_mem _ (List.mem_cons_self ..))
    have hn := World.memo?_eq_none_of_effect? he
    have hb := secluded.bare_of_head rfl
    exact .inl (.noted (.ran w hn rt) hb (bare_cons.1 (bare_cons.1 hb).2).2 (by simp))
  | abandonRun => exact .inl (.pop (.stopped ..) (secluded.bare_of_head rfl))
  | @dispose w g n e code _ _ free =>
    refine .inl (.push ((World.SparesMemos.disposing w n).trans ?_) (bare hc secluded pure code free) rfl id)
    exact (World.SparesMemos.modifyEffect ..).trans (.of_nodes rfl rfl)
  | @retire w g u n _ =>
    exact .inl (.stay ((World.SparesMemos.disposing w n).trans (.note _ (e := .disposed n) trivial)) .inl)
  | mask code free _ =>
    exact .inl (.push (.of_nodes rfl rfl) (bare hc secluded pure code free) rfl id)
  | unmask => exact .inl (.pop (.of_nodes rfl rfl) (secluded.bare_of_head rfl))
  -- Stores
  | @beginPass w g id code free =>
    have hs : w.SparesMemos ⟨w, g, false⟩ ((w.note (.passAsked id)).passBegun id) :=
      (World.SparesMemos.note w (e := .passAsked id) trivial).trans
        (noting (e := .passBegan id) trivial rfl rfl)
    exact .inl (.push hs (bare hc secluded pure code free) rfl fun h => h)
  | @postpone w g id =>
    exact .inl (.stay ((World.SparesMemos.note w (e := .passAsked id) trivial).trans
      (noting (e := .passPostponed id) trivial rfl rfl)) .inl)
  | @endPass w g id rt u =>
    exact .inl (.exchange (noting (e := .passEnded id) trivial rfl rfl) (secluded.bare_of_head rfl)
      rfl fun h => h)
  | settle _ => exact .inl (.pop (.refl _) (secluded.bare_of_head rfl))
  | forgo _ => exact .inl (.pop (.of_nodes rfl rfl) (secluded.bare_of_head rfl))
  | takeUp =>
    have hb := secluded.bare_of_head rfl
    exact .inl (.noted (noting (e := .scheduled _) trivial rfl rfl) hb
      (bare_cons.2 ⟨rfl, (bare_cons.1 hb).2⟩) (by simp))
  | passOver _ => exact .inl (.exchange (.refl _) (secluded.bare_of_head rfl) rfl fun h => h)
  | beginCall _ _ _ =>
    have hb := secluded.bare_of_head rfl
    exact .inl (.noted (noting (e := .delivered _ _) trivial rfl rfl) hb
      (bare_cons.2 ⟨rfl, bare_cons.2 ⟨rfl, (bare_cons.1 hb).2⟩⟩) (by simp))
  | subscribe code free _ _ =>
    have hb := bare hc secluded pure code free
    exact .inl (.noted (noting (e := .subscribed _) trivial rfl rfl) hb
      (bare_cons.2 ⟨rfl, bare_cons.2 ⟨rfl, hb⟩⟩) (by simp))
  | greet _ _ =>
    exact .inl (.exchange (noting (e := .delivered _ _) trivial rfl rfl) (secluded.bare_of_head rfl) rfl
      fun h => h)
  | endCall =>
    exact .inl (.pop (noting (e := .returned _) trivial rfl rfl) (secluded.bare_of_head rfl))
  -- Runtimes
  | newRuntime _ => exact .inl (.stay (.of_nodes rfl rfl) .inl)
  | @beginFlush w g rt code free valid =>
    have code := code.resolve_right fun h => (hr.of_extends he).hooks _ valid h.2
    exact .inl (.push (noting (e := .flushBegan rt) trivial rfl rfl)
      (bare hc secluded pure code (free code)) rfl fun h => h)
  | beginRound _ =>
    exact .inl (.push (noting (e := .roundBegan _ _) trivial rfl rfl) (secluded.bare_of_head rfl) rfl
      fun h => h)
  | @giveUp w s g rt _ frames =>
    have hs : w.SparesMemos ⟨w, s, false⟩
        ((w.modifyRuntime rt fun r => { r with queue := [] }).note (.gaveUp rt)) :=
      noting (e := .gaveUp rt) trivial rfl rfl
    rcases frames with rfl | ⟨rfl, -⟩
    · exact .inl (.pop hs (secluded.bare_of_head rfl))
    · exact .inl (.stay hs .inl)
  | skipTurn _ => exact .inl (.exchange (.refl _) (secluded.bare_of_head rfl) rfl fun h => h)
  | @beginTurn w g rt n batch _ =>
    have hb := secluded.bare_of_head rfl
    refine .inl (.noted (.note _ (e := .turnBegan rt n) trivial) hb ?_ (by simp))
    exact bare_cons.2 ⟨rfl, bare_cons.2 ⟨rfl, (bare_cons.1 hb).2⟩⟩
  | endRound => exact .inl (.pop (.refl _) (secluded.bare_of_head rfl))
  | endFlush =>
    exact .inl (.pop (noting (e := .flushEnded _) trivial rfl rfl) (secluded.bare_of_head rfl))
  -- Interrupts
  | @throw w g _ code =>
    have hb : Bare g := by
      refine secluded.bare_of_code code ?_
      rintro n rt start s rfl
      have hopen := opened n (mem_actives.2 (.inr ⟨rt, start, List.mem_cons_self ..⟩))
      exact hp.calm _ _ (List.suffix_refl _) n hc.top.2 hopen
    exact .inl (.stay (.note _ hb) fun _ => .inr hb)
  | exhaust => exact absurd (List.mem_cons_self ..) hr.exhausted
  | drop _ => exact .inl (.pop (.refl _) (unwinding rfl))
  | resume => exact .inl (.stay (.refl _) nofun)

end Reactivity
