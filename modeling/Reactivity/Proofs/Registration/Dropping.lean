import Reactivity.Proofs.Registration.Waiting
import Mathlib

namespace Reactivity

/-- Since its function was last started, the node waited for a flush when that was given up, or was
due in one when that ended. -/
def Dropped (n : NodeId) (history : List Event) : Prop :=
  ∃ new old rt, .started n ∉ new ∧
    (history = new ++ .gaveUp rt :: old ∧ n ∈ waiting rt old ∨
      history = new ++ .flushEnded rt :: old ∧ n ∈ due rt old)

/-- The part was triggered before `new` happened, and since then the node, which did not wait for a
flush, was neither queued nor started. -/
structure Missed (n : NodeId) (x : Handle) (key : Key) (history new : List Event) : Prop where
  past : ∃ old, history = new ++ .triggered x key :: old ∧ ∀ rt, n ∉ waiting rt old
  started : .started n ∉ new
  queued : ∀ rt, .queued rt n ∉ new

theorem Dropped.append {n : NodeId} {new history : List Event} (h : Dropped n history)
    (hs : .started n ∉ new) : Dropped n (new ++ history) := by
  obtain ⟨new', old, rt, hs', h⟩ := h
  refine ⟨new ++ new', old, rt, by simp [hs, hs'], ?_⟩
  rcases h with ⟨rfl, hm⟩ | ⟨rfl, hm⟩
  · exact .inl ⟨(List.append_assoc ..).symm, hm⟩
  · exact .inr ⟨(List.append_assoc ..).symm, hm⟩

theorem Missed.append {n : NodeId} {x : Handle} {key : Key} {history new : List Event}
    (h : Missed n x key history new) (new' : List Event) (hs : .started n ∉ new')
    (hq : ∀ rt, .queued rt n ∉ new') :
    Missed n x key (new' ++ history) (new' ++ new) where
  past := by
    obtain ⟨old, rfl, hw⟩ := h.past
    exact ⟨old, (List.append_assoc ..).symm, hw⟩
  started := by simp [hs, h.started]
  queued rt := by simp [hq rt, h.queued rt]

namespace World

/-- A change of the part tells the node, or the node waits for a flush already. -/
def Hears (w : World) (n : NodeId) (x : Handle) (key : Key) : Prop :=
  (key, n) ∈ w.readers x ∨ ∃ rt, n ∈ w.queue rt

/-- The part was triggered, and a hook was asked for a flush and flushed at once before the node
was told. -/
def Untold (w : World) (n : NodeId) (x : Handle) (key : Key) : Prop :=
  ∃ new rt, Missed n x key w.history new ∧ (w.runtime rt).hook = .flush ∧
    (.flushBegan rt ∈ new ∨ .flushEnded rt ∈ new)

/-- The node hears of changes of the part, or is to be run, or was left out. -/
def Accounted (w : World) (n : NodeId) (x : Handle) (key : Key) : Prop :=
  w.Hears n x key ∨ (∃ rt, n ∈ due rt w.history) ∨ Dropped n w.history ∨ w.Untold n x key

theorem lt_of_hook {w : World} {rt : RuntimeId} (h : (w.runtime rt).hook = .flush) :
    rt < w.runtimes.size := by
  by_contra hrt
  rw [runtime, Array.getElem?_eq_none (Nat.le_of_not_lt hrt)] at h
  cases h

theorem Spares.hears {w w' : World} {n : NodeId} (h : w.Spares n w') {x : Handle} {key : Key}
    (hh : w.Hears n x key) : w'.Hears n x key :=
  hh.imp (h.registered x key) fun ⟨rt, hn⟩ => ⟨rt, h.queued rt hn⟩

end World

/-- Nodes are being told of a change, and the node is one of those that are still to be told. -/
def AboutToTell (n : NodeId) : List Frame → Prop
  | .writing .. :: g => AboutToTell n g
  | .telling _ ns :: g => n ∈ ns ∨ AboutToTell n g
  | _ => False

theorem AtCode.not_aboutToTell {g : List Frame} (h : AtCode g) (n : NodeId) :
    ¬ AboutToTell n g := by
  cases g with
  | nil => exact id
  | cons f g => cases f <;> first | exact h.elim | exact id

namespace Config

/-- The node is accounted for, or is about to be told of a change of the part. -/
def Accounted (c : Config) (n : NodeId) (x : Handle) (key : Key) : Prop :=
  c.world.Accounted n x key ∨
    c.unwinding = false ∧ AboutToTell n c.stack ∧ ∃ new, Missed n x key c.world.history new

/-- The node is accounted for on all that it has read since its function was last started, unless
it is a memo, was disposed of, or was taken from everything since. -/
def Accounts (c : Config) (n : NodeId) : Prop :=
  c.world.isDisposed n = false → c.world.memo? n = none →
    .cleared n ∉ sinceStart n c.world.history →
      ∀ x key, .tracked n x key ∈ sinceStart n c.world.history → c.Accounted n x key

/-- All nodes are accounted for, and the queues are what the past tells them to be. -/
structure Attentive (c : Config) : Prop where
  queues : ∀ rt, waiting rt c.world.history = c.world.queue rt
  accounts : ∀ n, c.Accounts n

theorem memo?_eq_none {w w' : World} (he : w.Extends w') {n : NodeId} (h : w'.memo? n = none) :
    w.memo? n = none := by
  by_contra hm
  have hm' := he.isSome_memo? (Option.isSome_iff_ne_none.2 hm)
  rw [h] at hm'
  cases hm'

namespace Accounts

variable {c c' : Config} {w w' : World} {g g' : List Frame} {u u' : Bool} {n : NodeId}

/-- The function of the node has just been started: there is nothing that it has read. -/
theorem of_started {old : List Event} (h : c.world.history = .started n :: old) : c.Accounts n := by
  intro _ _ _ x key ht
  rw [h, sinceStart_started] at ht
  cases ht

theorem of_cleared {old : List Event} (h : c.world.history = .cleared n :: old) :
    c.Accounts n := by
  intro _ _ hc
  rw [h, sinceStart_cons (by simp)] at hc
  exact absurd List.mem_cons_self hc

theorem of_queued {rt : RuntimeId} (h : n ∈ c.world.queue rt) : c.Accounts n :=
  fun _ _ _ _ _ _ => .inl (.inl (.inr ⟨rt, h⟩))

/-- What has to be shown of a step: of the node that hears, of the node that is due and of the node
that is about to be told. That it was left out stays so as long as it is not started. -/
theorem step (h : c.Accounts n) (new : List Event) (he : c.world.Extends c'.world)
    (past : c'.world.history = new ++ c.world.history) (started : .started n ∉ new)
    (queued : ∀ rt, .queued rt n ∉ new)
    (disposed : c.world.isDisposed n → c'.world.isDisposed n)
    (tracked : ∀ x key, .tracked n x key ∈ new → c'.Accounted n x key)
    (hears : ∀ x key, c.world.Hears n x key → c'.Accounted n x key)
    (due : ∀ rt x key, n ∈ due rt c.world.history → c'.Accounted n x key)
    (telling : c'.world.isDisposed n = false → c'.world.memo? n = none → c.unwinding = false →
      AboutToTell n c.stack → ∀ x key new, Missed n x key c.world.history new →
        c'.Accounted n x key) : c'.Accounts n := by
  intro hd hm hc x key ht
  rw [past, sinceStart_append started, List.mem_append, not_or] at hc
  rw [past, sinceStart_append started] at ht
  rcases List.mem_append.1 ht with ht | ht
  · exact tracked x key ht
  have hd' : c.world.isDisposed n = false :=
    eq_false_of_ne_true fun hn => by rw [disposed hn] at hd; cases hd
  rcases h hd' (memo?_eq_none he hm) hc.2 x key ht with hw | ⟨hu, ha, old, hmissed⟩
  · rcases hw with hw | ⟨rt, hw⟩ | hw | ⟨old, rt, hmissed, hook, hf⟩
    · exact hears x key hw
    · exact due rt x key hw
    · exact .inl (.inr (.inr (.inl (past ▸ hw.append started))))
    · refine .inl (.inr (.inr (.inr ⟨new ++ old, rt, ?_, ?_, ?_⟩)))
      · exact past ▸ hmissed.append new started queued
      · exact (he.runtimes rt (World.lt_of_hook hook)).2.2.trans hook
      · exact hf.imp (List.mem_append_right _) (List.mem_append_right _)
  · exact telling hd hm hu ha x key old hmissed

/-- Steps by which nothing happens to the node, and no effect is queued or taken from the queue. -/
theorem ordinary (h : Accounts ⟨w, g, u⟩ n) (he : w.Extends w') (ho : w.Ordinary n w')
    (hg : u = false → AboutToTell n g → w'.isDisposed n = false → w'.memo? n = none →
      u' = false ∧ AboutToTell n g') : Accounts ⟨w', g', u'⟩ n := by
  obtain ⟨new, hnew, hidle⟩ := ho.past
  have started : .started n ∉ new := fun hm => (hidle _ hm).2 rfl
  have queued (rt : RuntimeId) : .queued rt n ∉ new := fun hm => (hidle _ hm).1 trivial
  refine h.step new he hnew started queued ho.spares.disposed
    (fun x key hm => absurd rfl (hidle _ hm).2) (fun x key hh => .inl (.inl (ho.spares.hears hh)))
    (fun rt x key hn => .inl (.inr (.inl ⟨rt, ?_⟩))) fun hd hm hu ha x key old hmissed => .inr ?_
  · change n ∈ Reactivity.due rt w'.history
    rw [hnew]
    exact mem_due_append (fun e hm => (hidle e hm).1) (fun e hm => (hidle e hm).2) hn
  · obtain ⟨hu', ha'⟩ := hg hu ha hd hm
    exact ⟨hu', ha', new ++ old, hnew ▸ hmissed.append new started queued⟩

theorem trackedBy (h : Accounts ⟨w, g, u⟩ n) {x : Handle} (hx : x.Valid w) (m : NodeId) (key : Key) :
    Accounts ⟨w.trackedBy m x key, g, u⟩ n := by
  have hs : w.Spares n (w.trackedBy m x key) := .trackedBy w m x key
  have hh := w.history_trackedBy m x key
  refine h.step [.tracked m x key] (.trackedBy w m x key) hh (by simp) (by simp)
    hs.disposed (fun x' key' hm => ?_) (fun x key hk => .inl (.inl (hs.hears hk)))
    (fun rt x' key' hn => .inl (.inr (.inl ⟨rt, ?_⟩))) fun _ _ hu ha x' key' old hmissed => .inr ?_
  · obtain ⟨rfl, rfl, rfl⟩ := Event.tracked.inj (List.mem_singleton.1 hm)
    refine .inl (.inl (.inl ?_))
    change (key', n) ∈ (w.trackedBy n x' key').readers x'
    rw [World.trackedBy]
    split
    · next hc => exact (World.readers_note w _ x').symm ▸ List.contains_iff_mem.1 hc
    · rw [World.readers_modifySources, World.readers_modifyReaders, if_pos ⟨rfl, hx⟩]
      exact List.mem_append_right _ (List.mem_singleton_self _)
  · change n ∈ Reactivity.due rt (w.trackedBy m x key).history
    rw [hh]
    exact hn
  · refine ⟨hu, ha, .tracked m x key :: old, ?_⟩
    change Missed n x' key' (w.trackedBy m x key).history _
    rw [hh]
    exact hmissed.append [.tracked m x key] (by simp) (by simp)

theorem trackedIn (h : Accounts ⟨w, g, u⟩ n) {x : Handle} (hx : x.Valid w) (rt : RuntimeId)
    (key : Key) : Accounts ⟨w.trackedIn rt x key, g, u⟩ n := by
  rw [World.trackedIn]
  split
  · exact h
  · exact h.trackedBy hx _ key

theorem clearedOf (h : Accounts ⟨w, g, u⟩ n) (m : NodeId)
    (hg : ¬ AboutToTell n g) : Accounts ⟨w.clearedOf m, g', u'⟩ n := by
  by_cases hmn : m = n
  · subst hmn
    exact of_cleared (w.history_clearedOf m)
  · exact h.ordinary (.clearedOf w m) (.clearedOf w hmn) fun _ ha => absurd ha hg

theorem running (h : Accounts ⟨w, g, u⟩ n) (m : NodeId) (rt : RuntimeId)
    (hg : ¬ AboutToTell n g) : Accounts ⟨w.running m rt, g', u'⟩ n := by
  by_cases hmn : m = n
  · subst hmn
    exact of_started (w.history_running m rt)
  · exact h.ordinary (.running w m rt) (.running w hmn rt) fun _ ha => absurd ha hg

theorem disposing (h : Accounts ⟨w, g, u⟩ n) (m : NodeId) :
    Accounts ⟨w.disposing m, g, u⟩ n := by
  by_cases hmn : m = n
  · subst hmn
    exact of_cleared (w.history_disposing m)
  · exact h.ordinary (.disposing w m) (.disposing w hmn) fun hu ha _ _ => ⟨hu, ha⟩

theorem computing (h : Accounts ⟨w, g, u⟩ n) {m : NodeId} (hm : (w.memo? m).isSome)
    (rt : RuntimeId) (hg : ¬ AboutToTell n g) : Accounts ⟨w.computing m rt, g', u'⟩ n := by
  by_cases hmn : m = n
  · subst hmn
    intro _ hnone
    have hs := (World.Extends.computing w m rt).isSome_memo? hm
    simp only at hnone
    rw [hnone] at hs
    cases hs
  · exact h.ordinary (.computing w m rt) (.computing w hmn rt) fun _ ha => absurd ha hg

/-- Who was registered on a part is about to be told, unless it waits for a flush already. -/
theorem taken (h : Accounts ⟨w, g, false⟩ n) (hq : ∀ rt, waiting rt w.history = w.queue rt)
    (x : Handle) (key : Key) (registered : (key, n) ∈ w.readers x → AboutToTell n g')
    (told : AboutToTell n g → AboutToTell n g') : Accounts ⟨w.taken x key, g', false⟩ n := by
  have hh := w.history_taken x key
  have queue (rt : RuntimeId) : (w.taken x key).queue rt = w.queue rt :=
    World.queue_congr (World.runtimes_taken w x key) rt
  have nodes : w.SameNodes (w.taken x key) := .taken w x key
  refine h.step [.triggered x key] (.taken w x key) hh (by simp) (by simp)
    (fun hd => ?_) (by simp) (fun x' key' hk => ?_)
    (fun rt x' key' hn => .inl (.inr (.inl ⟨rt, ?_⟩))) fun _ _ hu ha x' key' old hmissed => .inr ?_
  · exact (nodes.isDisposed n).trans hd
  · by_cases hwaits : ∃ rt, n ∈ w.queue rt
    · obtain ⟨rt, hn⟩ := hwaits
      exact .inl (.inl (.inr ⟨rt, (queue rt).symm ▸ hn⟩))
    · have hr := hk.resolve_right hwaits
      by_cases hx : x' = x ∧ key' = key
      · obtain ⟨rfl, rfl⟩ := hx
        refine .inr ⟨rfl, registered hr, [], ⟨w.history, hh, fun rt hn => hwaits ⟨rt, ?_⟩⟩, by simp,
          by simp⟩
        exact hq rt ▸ hn
      · refine .inl (.inl (.inl ?_))
        change (key', n) ∈ (w.taken x key).readers x'
        rw [World.taken, World.readers_modifyReaders]
        split
        · next hxx =>
          refine List.mem_filter.2 ⟨hxx.1 ▸ hr, ?_⟩
          simpa using fun he => hx ⟨hxx.1, he⟩
        · exact (World.readers_note w _ x').symm ▸ hr
  · change n ∈ Reactivity.due rt (w.taken x key).history
    rw [hh]
    exact hn
  · refine ⟨rfl, told ha, .triggered x key :: old, ?_⟩
    change Missed n x' key' (w.taken x key).history _
    rw [hh]
    exact hmissed.append [.triggered x key] (by simp) (by simp)

theorem queuedIn (h : Accounts ⟨w, g, u⟩ n) {rt : RuntimeId} (hrt : rt < w.runtimes.size)
    (m : NodeId) (hg : m ≠ n → u = false → AboutToTell n g → u' = false ∧ AboutToTell n g') :
    Accounts ⟨w.queuedIn rt m, g', u'⟩ n := by
  by_cases hmn : m = n
  · subst hmn
    exact of_queued (w.mem_queue_queuedIn hrt m)
  have hs : w.Spares n (w.queuedIn rt m) := .queuedIn w rt m
  obtain ⟨new, hnew, hidle⟩ : ∃ new, (w.queuedIn rt m).history = new ++ w.history ∧
      ∀ e ∈ new, e = .queued rt m ∨ e = .requested rt := by
    rcases w.history_queuedIn rt m with hh | hh
    · exact ⟨[_], hh, by simp⟩
    · exact ⟨[_, _], hh, by simp⟩
  have started : .started n ∉ new := fun hm => by simpa using hidle _ hm
  have queued (rt' : RuntimeId) : .queued rt' n ∉ new := fun hm => by
    have := hidle _ hm
    simp [Ne.symm hmn] at this
  have hdue (rt' : RuntimeId) : due rt' (w.queuedIn rt m).history = due rt' w.history := by
    rcases w.history_queuedIn rt m with hh | hh <;> rw [hh] <;> rfl
  refine h.step new (.queuedIn w rt m) hnew started queued hs.disposed
    (fun x key hm => absurd (hidle _ hm) (by simp)) (fun x key hh => .inl (.inl (hs.hears hh)))
    (fun rt' x key hn => .inl (.inr (.inl ⟨rt', ?_⟩))) fun _ _ hu ha x key old hmissed => .inr ?_
  · exact (hdue rt').symm ▸ hn
  · obtain ⟨hu', ha'⟩ := hg hmn hu ha
    exact ⟨hu', ha', new ++ old, hnew ▸ hmissed.append new started queued⟩

theorem beginRound (h : Accounts ⟨w, .flushing rt :: g, false⟩ n) :
    Accounts ⟨(w.modifyRuntime rt fun r => { r with queue := [] }).note
      (.roundBegan rt (w.runtime rt).queue), g', u'⟩ n := by
  have queue (rt' : RuntimeId) (hne : rt ≠ rt') :
      ((w.modifyRuntime rt fun r => { r with queue := [] }).note
        (.roundBegan rt (w.runtime rt).queue)).queue rt' = w.queue rt' := by
    change ((w.modifyRuntime rt _).runtime rt').queue = _
    rw [World.runtime_modifyRuntime, if_neg fun h => hne h.1]
    rfl
  refine h.step [.roundBegan rt (w.runtime rt).queue] ?_ rfl (by simp) (by simp) id
    (by simp) (fun x key hk => .inl ?_) (fun rt' x key hn => .inl (.inr (.inl ⟨rt', ?_⟩)))
    fun _ _ _ ha => ha.elim
  · refine .trans ?_ (.note _ _)
    exact .modifyRuntime _ _ fun _ => ⟨rfl, rfl⟩
  · rcases hk with hr | ⟨rt', hn⟩
    · exact .inl (.inl (by cases x <;> exact hr))
    · by_cases hrt : rt = rt'
      · subst hrt
        refine .inr (.inl ⟨rt, ?_⟩)
        change n ∈ due rt (.roundBegan rt (w.runtime rt).queue :: w.history)
        rw [due, if_pos rfl]
        exact List.mem_append_left _ hn
      · exact .inl (.inr ⟨rt', (queue rt' hrt).symm ▸ hn⟩)
  · change n ∈ due rt' (.roundBegan rt (w.runtime rt).queue :: w.history)
    rw [due]
    split
    · exact List.mem_append_right _ hn
    · exact hn

theorem giveUp (h : Accounts ⟨w, .flushing rt :: g, false⟩ n)
    (hq : ∀ rt, waiting rt w.history = w.queue rt) :
    Accounts ⟨(w.modifyRuntime rt fun r => { r with queue := [] }).note (.gaveUp rt), g', u'⟩ n := by
  have queue (rt' : RuntimeId) (hne : rt ≠ rt') :
      ((w.modifyRuntime rt fun r => { r with queue := [] }).note (.gaveUp rt)).queue rt' =
        w.queue rt' := by
    change ((w.modifyRuntime rt _).runtime rt').queue = _
    rw [World.runtime_modifyRuntime, if_neg fun h => hne h.1]
    rfl
  refine h.step [.gaveUp rt] ?_ rfl (by simp) (by simp) id (by simp)
    (fun x key hk => .inl ?_) (fun rt' x key hn => .inl (.inr (.inl ⟨rt', hn⟩)))
    fun _ _ _ ha => ha.elim
  · refine .trans ?_ (.note _ _)
    exact .modifyRuntime _ _ fun _ => ⟨rfl, rfl⟩
  · rcases hk with hr | ⟨rt', hn⟩
    · exact .inl (.inl (by cases x <;> exact hr))
    · by_cases hrt : rt = rt'
      · subst hrt
        exact .inr (.inr (.inl ⟨[], w.history, rt, by simp, .inl ⟨rfl, (hq rt).symm ▸ hn⟩⟩))
      · exact .inl (.inr ⟨rt', (queue rt' hrt).symm ▸ hn⟩)

theorem endFlush (h : Accounts ⟨w, .flushing rt :: g, u⟩ n) :
    Accounts ⟨(w.modifyRuntime rt fun r => { r with flushing := false }).note (.flushEnded rt), g',
      u'⟩ n := by
  have hs : w.Spares n ((w.modifyRuntime rt fun r => { r with flushing := false }).note
      (.flushEnded rt)) := by
    refine .trans ?_ (.note _ _)
    exact .modifyRuntime w rt fun _ _ => id
  refine h.step [.flushEnded rt] ?_ rfl (by simp) (by simp) id (by simp)
    (fun x key hk => .inl (.inl (hs.hears hk))) (fun rt' x key hn => .inl ?_)
    fun _ _ _ ha => ha.elim
  · refine .trans ?_ (.note _ _)
    exact .modifyRuntime _ _ fun _ => ⟨rfl, rfl⟩
  · by_cases hrt : rt = rt'
    · subst hrt
      exact .inr (.inr (.inl ⟨[], w.history, rt, by simp, .inr ⟨rfl, hn⟩⟩))
    · refine .inr (.inl ⟨rt', ?_⟩)
      change n ∈ due rt' (.flushEnded rt :: w.history)
      rw [due, if_neg hrt]
      exact hn

/-- A flush begins. If a hook has asked for it, whoever is still to be told is not, for now. -/
theorem beginFlush (h : Accounts ⟨w, g, false⟩ n)
    (code : AtCode g ∨ AtTelling g ∧ (w.runtime rt).hook = .flush) :
    Accounts ⟨(w.note (.flushBegan rt)).modifyRuntime rt fun r =>
      { r with flushing := true, flushRequested := false }, g', u'⟩ n := by
  have ho : w.Ordinary n ((w.note (.flushBegan rt)).modifyRuntime rt fun r =>
      { r with flushing := true, flushRequested := false }) := by
    refine (World.Ordinary.note w (e := .flushBegan rt) id id).trans ?_
    exact .modifyRuntime _ rt fun _ => rfl
  have he : w.Extends ((w.note (.flushBegan rt)).modifyRuntime rt fun r =>
      { r with flushing := true, flushRequested := false }) := by
    refine .trans (.note w (.flushBegan rt)) ?_
    exact .modifyRuntime _ _ fun _ => ⟨rfl, rfl⟩
  refine h.step [.flushBegan rt] he rfl (by simp) (by simp) id (by simp)
    (fun x key hk => .inl (.inl (ho.spares.hears hk)))
    (fun rt' x key hn => .inl (.inr (.inl ⟨rt', hn⟩))) fun _ _ _ ha x key old hmissed => .inl ?_
  rcases code with hc | ⟨-, hook⟩
  · exact absurd ha (hc.not_aboutToTell n)
  · refine .inr (.inr (.inr ⟨_, rt, hmissed.append [.flushBegan rt] (by simp) (by simp), ?_,
      .inl (by simp)⟩))
    exact (he.runtimes rt (World.lt_of_hook hook)).2.2.trans hook

end Accounts

namespace Attentive

variable {w w' : World} {g g' : List Frame} {u u' : Bool}

theorem queues_of_ordinary (hq : ∀ rt, waiting rt w.history = w.queue rt) {n : NodeId}
    (ho : w.Ordinary n w') (rt : RuntimeId) : waiting rt w'.history = w'.queue rt := by
  obtain ⟨new, hnew, hidle⟩ := ho.past
  rw [hnew, waiting_append fun e he => (hidle e he).1, hq rt, ho.queue rt]

theorem ordinary (hc : Attentive ⟨w, g, u⟩) (he : w.Extends w') (ho : ∀ n, w.Ordinary n w')
    (hg : ∀ n, u = false → ¬ AboutToTell n g) : Attentive ⟨w', g', u'⟩ where
  queues := queues_of_ordinary hc.queues (ho 0)
  accounts n := (hc.accounts n).ordinary he (ho n) fun hu ha => absurd ha (hg n hu)

theorem stay (hc : Attentive ⟨w, g, u⟩) (he : w.Extends w') (ho : ∀ n, w.Ordinary n w')
    (hg : ∀ n, u = false → AboutToTell n g → w'.isDisposed n = false → w'.memo? n = none →
      u' = false ∧ AboutToTell n g') : Attentive ⟨w', g', u'⟩ where
  queues := queues_of_ordinary hc.queues (ho 0)
  accounts n := (hc.accounts n).ordinary he (ho n) (hg n)

theorem queuedIn (hc : Attentive ⟨w, g, u⟩) {rt : RuntimeId} (hrt : rt < w.runtimes.size)
    (m : NodeId) (hg : ∀ n, m ≠ n → u = false → AboutToTell n g → u' = false ∧ AboutToTell n g') :
    Attentive ⟨w.queuedIn rt m, g', u'⟩ where
  queues rt' := by
    change waiting rt' (w.queuedIn rt m).history = (w.queuedIn rt m).queue rt'
    have hwait : waiting rt' (w.queuedIn rt m).history =
        if rt = rt' then waiting rt' w.history ++ [m] else waiting rt' w.history := by
      rcases w.history_queuedIn rt m with hh | hh <;> rw [hh] <;> rfl
    rw [hwait, hc.queues rt', World.queue_queuedIn]
    by_cases h : rt = rt'
    · rw [if_pos h, if_pos ⟨h, h ▸ hrt⟩]
    · rw [if_neg h, if_neg fun h' => h h'.1]
  accounts n := (hc.accounts n).queuedIn hrt m (hg n)

theorem waiting_emptied (hq : ∀ rt, waiting rt w.history = w.queue rt) {rt : RuntimeId}
    (hrt : rt < w.runtimes.size) {e : Event} (he : (∃ batch, e = .roundBegan rt batch) ∨ e = .gaveUp rt)
    (rt' : RuntimeId) :
    waiting rt' (e :: w.history) =
      ((w.modifyRuntime rt fun r => { r with queue := [] }).note e).queue rt' := by
  have hwait : waiting rt' (e :: w.history) = if rt = rt' then [] else waiting rt' w.history := by
    rcases he with ⟨batch, rfl⟩ | rfl <;> rfl
  have hqueue : ((w.modifyRuntime rt fun r => { r with queue := [] }).note e).queue rt' =
      ((w.modifyRuntime rt fun r => { r with queue := [] }).runtime rt').queue := rfl
  rw [hwait, hqueue, World.runtime_modifyRuntime]
  by_cases h : rt = rt'
  · rw [if_pos h, if_pos ⟨h, h ▸ hrt⟩]
  · rw [if_neg h, if_neg fun h' => h h'.1]
    exact hq rt'

theorem queues_of_other (hq : ∀ rt, waiting rt w.history = w.queue rt) (m : NodeId)
    (ho : ∀ n, m ≠ n → w.Ordinary n w') (rt : RuntimeId) :
    waiting rt w'.history = w'.queue rt :=
  queues_of_ordinary hq (ho (m + 1) (Nat.ne_of_lt (Nat.lt_succ_self m))) rt

theorem trackedIn (hc : Attentive ⟨w, g, u⟩) {x : Handle} (hx : x.Valid w) (rt : RuntimeId)
    (key : Key) : Attentive ⟨w.trackedIn rt x key, g, u⟩ where
  queues rt' := by
    have hq := World.queue_congr (World.runtimes_trackedIn w rt x key) rt'
    have hh := w.history_trackedIn rt x key
    simp only
    rw [hq, hh, waiting_append, hc.queues rt']
    intro e he
    cases hr : w.currentReader rt with
    | none => simp [hr] at he
    | some m =>
      simp only [hr, Option.map_some, Option.toList_some, List.mem_singleton] at he
      exact he ▸ id
  accounts n := (hc.accounts n).trackedIn hx rt key

theorem taken (hc : Attentive ⟨w, g, false⟩) (x : Handle) (key : Key)
    (registered : ∀ n, (key, n) ∈ w.readers x → AboutToTell n g')
    (told : ∀ n, AboutToTell n g → AboutToTell n g') : Attentive ⟨w.taken x key, g', false⟩ where
  queues rt := by
    have hq := World.queue_congr (World.runtimes_taken w x key) rt
    simp only
    rw [hq, w.history_taken x key]
    exact hc.queues rt
  accounts n := (hc.accounts n).taken hc.queues x key (registered n) (told n)

end Attentive

end Config

open Config

/-- A step leaves no node out, unless a flush is given up or ends with the node in it. -/
theorem Step.attentive {c c' : Config} (h : Step c c') (hs : c.Sane) (hc : c.Attentive)
    (he : .exhausted ∉ c'.world.history) : c'.Attentive := by
  have hx := h.extends
  have code {g : List Frame} {u : Bool} (h : AtCode g) (n : NodeId) :
      u = false → ¬ AboutToTell n g := fun _ => h.not_aboutToTell n
  cases h with
  | aside h => exact hc.stay hx h.ordinary fun n hu ha _ _ => ⟨hu, ha⟩
  | @track w g rt n x key hg valid owner _ reader =>
    have ht := hc.trackedIn valid rt key
    rwa [World.trackedIn, reader] at ht
  | see hg _ _ _ _ _ _ => exact hc.ordinary hx (fun n => .note _ id id) (code hg)
  | newObject hg _ _ =>
    exact hc.ordinary hx (fun n => (World.Ordinary.note _ id id).trans (.pushObject _ _)) (code hg)
  | newArray hg _ _ =>
    exact hc.ordinary hx (fun n => (World.Ordinary.note _ id id).trans (.pushArray _ _)) (code hg)
  | resolveObject hg _ =>
    exact hc.ordinary hx (fun n => .modifyObject _ _ fun _ => rfl) (code hg)
  | resolveArray hg _ => exact hc.ordinary hx (fun n => .modifyArray _ _ fun _ => rfl) (code hg)
  | write hg _ _ edit => exact hc.ordinary hx edit.ordinary (code hg)
  | beginChange hg _ _ _ => exact hc.ordinary hx (fun n => .note _ id id) (code hg)
  | @endChange w g rt array before after _ _ =>
    refine hc.ordinary hx (fun n => ?_) fun n _ => id
    have hn : w.Ordinary n ((w.note (.changeEnded array)).note (.wrote (.items array before after))) :=
      (World.Ordinary.note w id id).trans (.note _ id id)
    exact hn.trans (.modifyArray _ _ fun _ => rfl)
  | abandonChange => exact hc.ordinary hx (fun n => .note _ id id) fun n hu => by cases hu
  | trigger =>
    exact hc.taken _ _ (fun n hn => .inl (Readers.mem_on.2 hn)) fun n ha => .inr ha
  | written => exact hc.stay hx (fun n => .refl _ n) fun n hu ha _ _ => ⟨hu, ha⟩
  | told =>
    exact hc.stay hx (fun n => .refl _ n) fun n hu ha _ _ =>
      ⟨hu, ha.resolve_left List.not_mem_nil⟩
  | @tellDisposed w g rt m ns disposed =>
    refine hc.stay hx (fun n => .refl w n) fun n hu ha hd _ => ⟨hu, ha.imp_left fun hn => ?_⟩
    refine (List.mem_cons.1 hn).resolve_left fun hnm => ?_
    rw [hnm, disposed] at hd
    cases hd
  | @tellQueued w g rt m ns effect queued =>
    refine ⟨hc.queues, fun n => ?_⟩
    by_cases hnm : n = m
    · subst hnm
      exact .of_queued queued
    · refine (hc.accounts n).ordinary hx (.refl w n) fun hu ha _ _ => ⟨hu, ha.imp_left fun hn => ?_⟩
      exact (List.mem_cons.1 hn).resolve_left hnm
  | @tellEffect w g rt m ns _ _ =>
    have hrt : rt < w.runtimes.size := (hs.frames _ (List.mem_cons_self ..)).1
    refine hc.queuedIn hrt m fun n hmn hu ha => ⟨hu, ha.imp_left fun hn => ?_⟩
    exact (List.mem_cons.1 hn).resolve_left (Ne.symm hmn)
  | @tellDirty w g rt m ns x memo dirty =>
    refine hc.stay hx (fun n => .madeDirty w m) fun n hu ha _ hm => ⟨hu, ha.imp_left fun hn => ?_⟩
    refine (List.mem_cons.1 hn).resolve_left fun hnm => ?_
    have hnone := memo?_eq_none hx hm
    rw [hnm, memo] at hnone
    cases hnone
  | @tellClean w g rt m ns x memo clean =>
    refine hc.stay hx (fun n => .madeDirty w m) fun n hu ha _ hm => ⟨hu, ha.imp_left fun hn => ?_⟩
    refine (List.mem_cons.1 hn).resolve_left fun hnm => ?_
    have hnone := memo?_eq_none hx hm
    rw [hnm, memo] at hnone
    cases hnone
  | @schedule w g m e hg _ effect _ _ _ =>
    have hn : Attentive ⟨w.note (.scheduled m), g, false⟩ :=
      hc.ordinary (.note w _) (fun n => .note w id id) (code hg)
    have hrt : e.runtime < w.runtimes.size := (hs.world.effects m e effect).1
    exact hn.queuedIn hrt m fun n _ hu ha => absurd ha (hg.not_aboutToTell n)
  | markDirty hg _ _ =>
    exact hc.ordinary hx (fun n => (World.Ordinary.note _ id id).trans (.madeDirty _ _)) (code hg)
  | markClean hg _ _ _ =>
    exact hc.ordinary hx (fun n => (World.Ordinary.note _ id id).trans (.madeDirty _ _)) (code hg)
  | newMemo hg _ _ => exact hc.ordinary hx (fun n => .pushNode _ _) (code hg)
  | @reuse w g n m r hg memo _ _ _ =>
    have hv : Handle.Valid w (.memo n) := Option.isSome_of_eq_some memo
    exact (hc.trackedIn hv m.runtime .value).ordinary (.note _ _) (fun n => .note _ id id) (code hg)
  | @beginCompute w g n m hg memo _ _ =>
    have hv : Handle.Valid w (.memo n) := Option.isSome_of_eq_some memo
    have ht := hc.trackedIn hv m.runtime .value
    have hm := (World.Extends.trackedIn w m.runtime (.memo n) .value).isSome_memo? hv
    refine ⟨Attentive.queues_of_other ht.queues n fun k hnk => .computing _ hnk m.runtime, fun k => ?_⟩
    exact (ht.accounts k).computing hm m.runtime (hg.not_aboutToTell k)
  | endCompute _ _ _ => exact hc.ordinary hx (fun n => .computed _ _ _ _) fun n _ => id
  | abandonCompute =>
    exact hc.ordinary hx (fun n => .modifyRuntime _ _ fun _ => rfl) fun n hu => by cases hu
  | endReading _ _ => exact hc.ordinary hx (fun n => .gotBy _ _ _ _) fun n _ => id
  | newEffect hg _ _ _ _ => exact hc.ordinary hx (fun n => .pushNode _ _) (code hg)
  | newStore hg _ _ => exact hc.ordinary hx (fun n => .withStore _ _) (code hg)
  | @addCleanup w g rt m e c hg _ _ _ _ _ =>
    refine hc.ordinary hx (fun n => ?_) (code hg)
    have hn : w.Ordinary n (w.note (.cleanupAdded m c)) := .note w id id
    exact hn.trans (.modifyEffect _ _ fun _ => id)
  | beginCleaning _ => exact hc.ordinary hx (fun n => .cleaning _ _ _) fun n _ => id
  | @endCleaning w g m rt =>
    refine hc.ordinary hx (fun n => ?_) fun n _ => id
    have hp : w.Ordinary n (w.popContext rt) := .modifyRuntime _ _ fun _ => rfl
    exact hp.trans (.note _ id id)
  | abandonCleaning _ =>
    exact hc.ordinary hx (fun n => .modifyRuntime _ _ fun _ => rfl) fun n hu => by cases hu
  | skipPending _ => exact hc.ordinary hx (fun n => .refl _ n) fun n _ => id
  | @clearRunning w g m e _ _ =>
    exact ⟨Attentive.queues_of_other hc.queues m fun n hmn => .clearedOf w hmn,
      fun n => (hc.accounts n).clearedOf m id⟩
  | @beginRun w g m rt f e _ _ _ turn =>
    refine ⟨Attentive.queues_of_other hc.queues m fun n hmn => .running w hmn rt, fun n => ?_⟩
    refine (hc.accounts n).running m rt ?_
    rcases turn with ⟨rfl, -⟩ | ⟨rfl, -⟩
    · exact id
    · exact id
  | endRun _ => exact hc.ordinary hx (fun n => .ran _ _ _) fun n _ => id
  | beginWatch _ _ => exact hc.ordinary hx (fun n => .refl _ n) fun n _ => id
  | advance h => cases h <;> exact hc.ordinary hx (fun n => .note _ id id) fun n _ => id
  | keep _ _ _ => exact hc.ordinary hx (fun n => .modifyEffect _ _ fun _ => id) fun n _ => id
  | endReport => exact hc.ordinary hx (fun n => .refl _ n) fun n _ => id
  | watched _ _ _ => exact hc.ordinary hx (fun n => .refl _ n) fun n _ => id
  | prime _ _ => exact hc.ordinary hx (fun n => .modifyEffect _ _ fun _ => id) fun n _ => id
  | skipPass _ _ _ => exact hc.ordinary hx (fun n => .refl _ n) fun n _ => id
  | watchPass _ _ _ _ => exact hc.ordinary hx (fun n => .passBegun _ _) fun n _ => id
  | watchPostpone _ _ _ => exact hc.ordinary hx (fun n => .passPostponed _ _) fun n _ => id
  | endWatch _ => exact hc.ordinary hx (fun n => .ran _ _ _) fun n _ => id
  | abandonRun => exact hc.ordinary hx (fun n => .stopped _ _ _) fun n hu => by cases hu
  | @dispose w g m e hg _ _ _ =>
    have hd : Attentive ⟨w.disposing m, g, false⟩ :=
      ⟨Attentive.queues_of_other hc.queues m fun n hmn => .disposing w hmn,
        fun n => (hc.accounts n).disposing m⟩
    exact hd.ordinary (.cleaning _ _ _) (fun n => .cleaning _ _ _) (code hg)
  | @retire w g u m _ =>
    have hd : Attentive ⟨w.disposing m, g, u⟩ :=
      ⟨Attentive.queues_of_other hc.queues m fun n hmn => .disposing w hmn,
        fun n => (hc.accounts n).disposing m⟩
    exact hd.stay (.note _ _) (fun n => .note _ id id) fun n hu ha _ _ => ⟨hu, ha⟩
  | mask hg _ _ => exact hc.ordinary hx (fun n => .modifyRuntime _ _ fun _ => rfl) (code hg)
  | unmask => exact hc.ordinary hx (fun n => .modifyRuntime _ _ fun _ => rfl) fun n _ => id
  | beginPass hg _ _ _ =>
    exact hc.ordinary hx (fun n => (World.Ordinary.note _ id id).trans (.passBegun _ _)) (code hg)
  | endPass => exact hc.ordinary hx (fun n => .passEnded _ _ _) fun n _ => id
  | postpone hg _ _ =>
    exact hc.ordinary hx (fun n => (World.Ordinary.note _ id id).trans (.passPostponed _ _)) (code hg)
  | settle _ => exact hc.ordinary hx (fun n => .refl _ n) fun n _ => id
  | forgo _ =>
    exact hc.ordinary hx (fun n => .of_eq rfl rfl rfl (fun _ => rfl) rfl) fun n _ => id
  | @takeUp w g id e _ _ _ =>
    refine hc.ordinary hx (fun n => ?_) fun n _ h => h
    have hn : w.Ordinary n (w.modifyStore id fun s => { s with pending := false }) :=
      .of_eq rfl rfl rfl (fun _ => rfl) rfl
    exact hn.trans (.note _ (fun h => h) fun h => h)
  | passOver _ => exact hc.ordinary hx (fun n => .refl _ n) fun n _ => id
  | beginCall _ _ _ => exact hc.ordinary hx (fun n => .callBegun _ _ _) fun n _ => id
  | greet _ _ => exact hc.ordinary hx (fun n => .callBegun _ _ _) fun n _ => id
  | subscribe hg _ _ _ =>
    exact hc.ordinary hx (fun n => (World.Ordinary.withSubscription _ _ _).trans
      (.modifyRuntime _ _ fun _ => rfl)) (code hg)
  | endCall => exact hc.ordinary hx (fun n => .callEnded _ _) fun n _ => id
  | newRuntime hg => exact hc.ordinary hx (fun n => .pushRuntime _ rfl) (code hg)
  | @beginFlush w g rt hg _ _ _ =>
    refine ⟨Attentive.queues_of_ordinary (n := 0) hc.queues ?_, fun n =>
      (hc.accounts n).beginFlush hg⟩
    refine (World.Ordinary.note w (e := .flushBegan rt) id id).trans ?_
    exact .modifyRuntime _ rt fun _ => rfl
  | @beginRound w g rt _ =>
    refine ⟨fun rt' => ?_, fun n => (hc.accounts n).beginRound⟩
    have hrt : rt < w.runtimes.size := hs.frames _ (List.mem_cons_self ..)
    exact Attentive.waiting_emptied hc.queues hrt (.inl ⟨_, rfl⟩) rt'
  | @giveUp w s g rt _ frames =>
    have hrt : rt < w.runtimes.size := by
      rcases frames with rfl | ⟨rfl, -⟩
      · exact hs.frames (.flushing rt) (List.mem_cons_of_mem _ (List.mem_cons_self ..))
      · exact hs.frames _ (List.mem_cons_self ..)
    have hf : Attentive ⟨w, .flushing rt :: g, false⟩ := by
      rcases frames with rfl | ⟨rfl, -⟩
      · exact hc.ordinary (.refl w) (fun n => .refl w n) fun n _ => id
      · exact hc
    refine ⟨fun rt' => ?_, fun n => (hf.accounts n).giveUp hc.queues⟩
    exact Attentive.waiting_emptied hc.queues hrt (.inr rfl) rt'
  | skipTurn _ => exact hc.ordinary hx (fun n => .refl _ n) fun n _ => id
  | beginTurn _ => exact hc.ordinary hx (fun n => .note _ id id) fun n _ => id
  | endRound => exact hc.ordinary hx (fun n => .refl _ n) fun n _ => id
  | @endFlush w g rt u _ =>
    refine ⟨fun rt' => ?_, fun n => (hc.accounts n).endFlush⟩
    have hq := World.queue_modifyRuntime w rt rt' (f := fun r => { r with flushing := false })
      fun _ => rfl
    exact (hc.queues rt').trans hq.symm
  | throw hg => exact hc.ordinary hx (fun n => .note _ id id) (code hg)
  | exhaust => exact absurd (List.mem_cons_self ..) he
  | drop _ => exact hc.ordinary hx (fun n => .refl _ n) fun n hu => by cases hu
  | resume => exact hc.ordinary hx (fun n => .refl _ n) fun n hu => by cases hu

theorem Reaches.attentive {settings : Settings} {hook : Hook} {c : Config}
    (h : Reaches (.start settings hook) c) (he : .exhausted ∉ c.world.history) : c.Attentive := by
  induction h with
  | refl =>
    refine ⟨fun rt => ?_, fun n _ _ _ x key ht => absurd ht List.not_mem_nil⟩
    change [] = (World.start settings hook).queue rt
    rw [World.queue, World.runtime]
    cases rt with
    | zero => rfl
    | succ rt => rfl
  | tail steps step ih =>
    exact step.attentive (steps.sane (Config.start_sane settings hook))
      (ih fun hm => he (step.extends.history.subset hm)) he

theorem World.isDisposed_eq_of_effect? {w : World} {n : NodeId} {e : Effect}
    (h : w.effect? n = some e) : w.isDisposed n = e.disposed := by
  rw [World.isDisposed, h]
  rfl

/-- When the program's own code runs again after a hook has flushed, whoever is still to be told of a
change has missed the flush. -/
theorem AfterHook.untold {w : World} {g : List Frame} (h : AfterHook w g) {n : NodeId} {x : Handle}
    {key : Key} {new : List Event} (hm : Missed n x key w.history new) : w.Untold n x key := by
  obtain ⟨-, rt, hook, past, hpast⟩ := h
  refine ⟨new, rt, hm, hook, .inr ?_⟩
  obtain ⟨old, hold, -⟩ := hm.past
  cases new with
  | nil => simp [hpast] at hold
  | cons e new =>
    rw [hpast, List.cons_append, List.cons.injEq] at hold
    exact hold.1 ▸ List.mem_cons_self

/-- Nothing but being dropped makes an effect deaf, whatever a program does and however its flushes
end. On each part that an effect has read in its latest run it is still registered, and has read the
part since that was last triggered; or it waits for a flush, or is due in one; or it was dropped by a
flush that was given up or that something thrown ended; or the flush of a hook came before it was
told. Only an effect that was taken from everything in the middle of its run is left out. -/
theorem heard_unless_dropped (settings : Settings) (hook : Hook) (depth : Nat) (es : List Expr) :
    Throughout settings hook depth es fun w => .exhausted ∉ w.history →
      ∀ n e, w.effect? n = some e → e.disposed = false → .cleared n ∉ sinceStart n w.history →
        ∀ x key, .tracked n x key ∈ sinceStart n w.history →
          (key, n) ∈ w.readers x ∧ .tracked n x key ∈ sinceTriggered x key w.history ∨
            (∃ rt, n ∈ w.queue rt ∨ n ∈ due rt w.history) ∨ Dropped n w.history ∨
              w.Untold n x key := by
  refine throughout_of_reaches (fun {c} hreach _ hcode he n e hn hd hc x key ht => ?_) depth es
  have hnone := World.memo?_eq_none_of_effect? (Option.isSome_of_eq_some hn)
  have hdisposed := (World.isDisposed_eq_of_effect? hn).trans hd
  rcases (hreach.attentive he).accounts n hdisposed hnone hc x key ht with h | ⟨-, ha, new, hm⟩
  · rcases h with (hr | ⟨rt, hq⟩) | ⟨rt, hdue⟩ | hdrop | hu
    · exact .inl ⟨hr, hreach.mirrored.untriggered x key n hr⟩
    · exact .inr (.inl ⟨rt, .inl hq⟩)
    · exact .inr (.inl ⟨rt, .inr hdue⟩)
    · exact .inr (.inr (.inl hdrop))
    · exact .inr (.inr (.inr hu))
  · rcases hcode with hcode | hhook
    · exact absurd ha (hcode.not_aboutToTell n)
    · exact .inr (.inr (.inr (hhook.untold hm)))

def sinceFlush (history : List Event) : List Event :=
  history.takeWhile fun e =>
    match e with
    | .flushBegan _ => false
    | _ => true

/-- The events of the last run of a node that has returned, newest first. -/
def lastRun (n : NodeId) (history : List Event) : List Event :=
  sinceStart n <| history.dropWhile fun e =>
    match e with
    | .finished m => m != n
    | _ => true

/-- A flush has just ended early: it was given up, or something was thrown in it. -/
def endedEarly : List Event → Bool
  | .flushEnded rt :: .gaveUp rt' :: _ => rt == rt'
  | .flushEnded _ :: .threw _ :: _ => true
  | _ => false

/-- A flush has just ended early in which the function of the effect was not started, and the effect
is neither registered on a part that it has read in its last run that has returned, nor waits for a
flush. -/
def World.deafens (w : World) (n : NodeId) (x : Handle) (key : Key) : Bool :=
  let starts : Event → Bool
    | .started m => m == n
    | _ => false
  let tracks : Event → Bool
    | .tracked m x' key' => m == n && x' == x && key' == key
    | _ => false
  endedEarly w.history && (w.effect? n).any (!·.disposed) && !(sinceFlush w.history).any starts &&
    (lastRun n w.history).any tracks && !(w.readers x).contains (key, n) &&
      w.runtimes.all (!·.queue.contains n)

section Programs

def withObject (es : List Expr) : List Expr :=
  .assign "o" (.apply .wrapObject [.literal (.object [])]) :: es

def readProperty (name : String) : Expr :=
  .path true (.var "o") [.literal (.string name)]

def writeProperty (name : String) (value : Expr) : Expr :=
  .container .set (.var "o") [.literal (.string name), value]

def breakOn (name : String) : Expr :=
  .cond (.apply .isNothing [readProperty name]) .nothing (.throw "broken")

/-- The first effect passes a value on to the second, which takes two rounds. -/
def relaying : List Expr :=
  withObject [.effect (writeProperty "y" (readProperty "x")), .effect (readProperty "y"),
    writeProperty "x" (.literal (.bool true)), .apply .flush []]

def breaking : List Expr :=
  withObject [.effect (breakOn "x"), .effect (readProperty "x"),
    writeProperty "x" (.literal .null), .apply .flush []]

def breakingTwice : List Expr :=
  withObject [.effect (.block [breakOn "x", readProperty "y"]), .effect (breakOn "z"),
    writeProperty "x" (.literal .null), .apply .flush [], writeProperty "z" (.literal .null),
    .apply .flush []]

/-- The first effect is run again in the middle of its first run; later the second one throws. -/
def reentering : List Expr :=
  withObject [.effect (.block [readProperty "y", .cond (.apply .isNothing [readProperty "x"])
      (.block [writeProperty "x" (.literal .null), .apply .flush []]) .nothing]),
    .effect (breakOn "z"), writeProperty "z" (.literal .null), .apply .flush []]

/-- The hook flushes, and the first effect throws, before the second is told. -/
def breakingHook : List Expr :=
  withObject [.effect (breakOn "x"), .effect (readProperty "x"),
    writeProperty "x" (.literal .null)]

end Programs

set_option maxRecDepth 4000 in
/-- A flush that ends early can leave an effect deaf that has thrown nothing in it: where the rounds
run out, where another effect throws, where it has thrown in an earlier flush, where it was run again
in the middle of its run, and where a hook has flushed before it was told. -/
theorem aborted_flush_deafens :
    (World.after ⟨1⟩ .manual 3 relaying).deafens 1 (.object 0) (.property "y") ∧
      (World.after .standard .manual 3 breaking).deafens 1 (.object 0) (.property "x") ∧
      (World.after .standard .manual 3 breakingTwice).deafens 0 (.object 0) (.property "y") ∧
      (World.after .standard .manual 4 reentering).deafens 0 (.object 0) (.property "y") ∧
      (World.after .standard .flush 3 breakingHook).deafens 1 (.object 0) (.property "x") := by
  refine ⟨?_, ?_, ?_, ?_, ?_⟩
  · cbv
  · cbv
  · cbv
  · cbv
  · cbv

theorem history_relaying : (World.after ⟨1⟩ .manual 3 relaying).history =
    [.flushEnded 0, .gaveUp 0, .turnEnded 0 0, .finished 0, .queued 0 1,
      .triggered (.object 0) (.property "y"),
      .wrote (.property 0 "y" (some (.value .null)) (some (.bool true))),
      .saw 0 (.property 0 "x") (.value (.bool true)), .tracked 0 (.object 0) (.property "x"),
      .started 0, .cleared 0, .cleanedUp 0, .turnBegan 0 0, .roundBegan 0 [0], .flushBegan 0,
      .triggered (.object 0) .shape, .requested 0, .queued 0 0,
      .triggered (.object 0) (.property "x"),
      .wrote (.property 0 "x" none (some (.bool true))), .finished 1,
      .saw 1 (.property 0 "y") (.value .null), .tracked 1 (.object 0) (.property "y"), .started 1,
      .cleared 1, .cleanedUp 1, .finished 0, .triggered (.object 0) .shape,
      .triggered (.object 0) (.property "y"), .wrote (.property 0 "y" none (some .null)),
      .saw 0 (.property 0 "x") .nothing, .tracked 0 (.object 0) (.property "x"), .started 0,
      .cleared 0, .cleanedUp 0, .bound "o", .wrapped []] := by
  cbv

/-- The second effect waited for the round that was not run, and was dropped. -/
theorem heard_unless_dropped_relaying :
    Throughout ⟨1⟩ .manual 3 relaying (fun w => .exhausted ∉ w.history →
      ∀ n e, w.effect? n = some e → e.disposed = false → .cleared n ∉ sinceStart n w.history →
        ∀ x key, .tracked n x key ∈ sinceStart n w.history →
          (key, n) ∈ w.readers x ∧ .tracked n x key ∈ sinceTriggered x key w.history ∨
            (∃ rt, n ∈ w.queue rt ∨ n ∈ due rt w.history) ∨ Dropped n w.history ∨
              w.Untold n x key) ∧
    ∃ w, w = World.after ⟨1⟩ .manual 3 relaying ∧ .exhausted ∉ w.history ∧
      (w.effect? 1).map (·.disposed) = some false ∧ .cleared 1 ∉ sinceStart 1 w.history ∧
        .tracked 1 (.object 0) (.property "y") ∈ sinceStart 1 w.history ∧ Dropped 1 w.history := by
  refine ⟨heard_unless_dropped ⟨1⟩ .manual 3 relaying, _, rfl, ?_, by cbv, ?_, ?_, ?_⟩
  · simp [history_relaying]
  · simp [history_relaying, sinceStart]
  · simp [history_relaying, sinceStart]
  · rw [history_relaying]
    exact ⟨[.flushEnded 0], _, 0, by simp, .inl ⟨rfl, by simp [waiting]⟩⟩

end Reactivity
