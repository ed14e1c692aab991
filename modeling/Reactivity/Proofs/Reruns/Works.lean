import Reactivity.Proofs.Reruns.Observing
import Reactivity.Proofs.Run.Flushing

namespace Reactivity

/-- The event is about a change or a registration, or says that a function was started, that an
effect was queued or taken from the queue, or that a flush has ended. -/
def Event.Stirs : Event → Prop
  | .wrote write => write.changed ≠ []
  | .tracked .. | .cleared _ | .triggered .. | .started _ | .queued .. | .roundBegan .. | .gaveUp _
  | .flushEnded _ => True
  | _ => False

theorem Stage.Advance.not_stirs {s s' : Stage} {e : Event} (h : s.Advance e s') : ¬ e.Stirs := by
  cases h <;> exact id

def World.Hushed (w w' : World) : Prop :=
  ∃ new, w'.history = new ++ w.history ∧ ∀ e ∈ new, ¬ e.Stirs

namespace World.Hushed

variable {w w' w'' : World}

theorem of_eq (h : w'.history = w.history) : w.Hushed w' :=
  ⟨[], h, List.forall_mem_nil _⟩

theorem of_cons {e : Event} (h : w'.history = e :: w.history) (he : ¬ e.Stirs) : w.Hushed w' :=
  ⟨[e], h, List.forall_mem_singleton.2 he⟩

theorem of_two {e e' : Event} (h : w'.history = e' :: e :: w.history) (he' : ¬ e'.Stirs)
    (he : ¬ e.Stirs) : w.Hushed w' :=
  ⟨[e', e], h, List.forall_mem_cons.2 ⟨he', List.forall_mem_singleton.2 he⟩⟩

end World.Hushed

theorem Aside.hushed {w w' : World} (h : Aside w w') : w.Hushed w' := by
  cases h with
  | log | clearLog | external | task | hold | release => exact .of_eq rfl
  | rewrote write same => exact .of_cons rfl fun hs => hs same
  | cancel sub _ => exact .of_cons (w.history_cancelled sub) id
  | _ => exact .of_cons rfl id

def Frame.works : Frame → Bool
  | .writing .. | .telling .. | .pending _ | .running .. | .computing .. | .flushing _ | .round .. =>
    true
  | _ => false

def work (g : List Frame) : List Frame :=
  g.filter Frame.works

theorem mem_work {f : Frame} {g : List Frame} (hf : f.works) : f ∈ work g ↔ f ∈ g := by
  rw [work, List.mem_filter, and_iff_left hf]

theorem actives_work (g : List Frame) : actives (work g) = actives g := by
  induction g with
  | nil => rfl
  | cons f g ih =>
    rw [work, List.filter_cons]
    cases f <;> simp only [Frame.works, if_true, Bool.false_eq_true, if_false, actives] <;>
      first | exact ih | exact congrArg _ ih

def Frame.IsSpent (w : World) : Frame → Prop
  | .running .. | .computing .. | .writing _ _ [] | .telling _ [] | .round _ [] => True
  | .pending n => w.isDisposed n
  | _ => False

/-- What a step can do to changes, runs and flushes, if nothing is thrown. -/
inductive Works : Config → Config → Prop
  | rest {w w' : World} {g g' : List Frame} (past : w.Hushed w') (frames : work g' = work g) :
    Works ⟨w, g, false⟩ ⟨w', g', false⟩
  | ended {w w' : World} {g g' : List Frame} {f : Frame} (past : w.Hushed w') (done : f.IsSpent w)
    (frames : work g = f :: work g') : Works ⟨w, g, false⟩ ⟨w', g', false⟩
  | track {w w' : World} {g g' : List Frame} {n : NodeId} {h : Handle} {key : Key}
    (active : n ∈ actives g)
    (past : ∃ new, w'.history = new ++ .tracked n h key :: w.history ∧ ∀ e ∈ new, ¬ e.Stirs)
    (frames : work g' = work g) : Works ⟨w, g, false⟩ ⟨w', g', false⟩
  | compute {w w' : World} {g g' : List Frame} {n : NodeId} {m : Memo} {rt : RuntimeId}
    {start old : List Event} (code : AtCode g) (memo : w.memo? n = some m)
    (stale : m.dirty ∨ m.result = none) (past : w'.history = .started n :: .cleared n :: old)
    (tracked : old = w.history ∨
      ∃ x ∈ actives g, old = .tracked x (.memo n) .value :: w.history)
    (frames : work g' = .computing n rt start :: work g) : Works ⟨w, g, false⟩ ⟨w', g', false⟩
  | write {w w' : World} {g g' : List Frame} {rt : RuntimeId} {write : Write}
    (past : ∃ new, w'.history = .wrote write :: (new ++ w.history) ∧ ∀ e ∈ new, ¬ e.Stirs)
    (frames : work g' = .writing rt write.handle write.changed :: work g) :
    Works ⟨w, g, false⟩ ⟨w', g', false⟩
  | trigger {w : World} {g : List Frame} {rt : RuntimeId} {h : Handle} {key : Key}
    {keys : List Key} :
    Works ⟨w, .writing rt h (key :: keys) :: g, false⟩
      ⟨w.taken h key, .telling rt ((w.readers h).on key) :: .writing rt h keys :: g, false⟩
  | tell {w w' : World} {g : List Frame} {rt : RuntimeId} {n : NodeId} {ns : List NodeId}
    (past : w'.history = w.history) :
    Works ⟨w, .telling rt (n :: ns) :: g, false⟩ ⟨w', .telling rt ns :: g, false⟩
  | forward {w w' : World} {g : List Frame} {rt : RuntimeId} {n : NodeId} {ns : List NodeId}
    (past : w'.history = w.history) :
    Works ⟨w, .telling rt (n :: ns) :: g, false⟩
      ⟨w', .writing rt (.memo n) [.value] :: .telling rt ns :: g, false⟩
  | enqueue {w : World} {g : List Frame} {rt : RuntimeId} {n : NodeId} {ns : List NodeId} :
    Works ⟨w, .telling rt (n :: ns) :: g, false⟩ ⟨w.queuedIn rt n, .telling rt ns :: g, false⟩
  | schedule {w : World} {g : List Frame} {rt : RuntimeId} {n : NodeId} (code : AtCode g) :
    Works ⟨w, g, false⟩ ⟨(w.note (.scheduled n)).queuedIn rt n, g, false⟩
  | dirty {w w' : World} {g : List Frame} {rt : RuntimeId} {n : NodeId}
    (past : w'.history = .dirtied n :: w.history) :
    Works ⟨w, g, false⟩ ⟨w', .writing rt (.memo n) [.value] :: g, false⟩
  | takeUp {w w' : World} {g g' : List Frame} {rt : RuntimeId} {n : NodeId}
    (past : w'.history = .scheduled n :: w.history) (frames : work g' = .telling rt [n] :: work g) :
    Works ⟨w, g, false⟩ ⟨w', g', false⟩
  | run {w : World} {f : Frame} {g : List Frame} {n : NodeId} {rt : RuntimeId}
    (turn : f = .pending n ∨ f = .created n) :
    Works ⟨w, f :: g, false⟩ ⟨w.running n rt, .running n rt :: g, false⟩
  /-- The turn of an effect has come that is running further out. -/
  | clear {w : World} {g : List Frame} {n : NodeId} (busy : w.isRunning n) :
    Works ⟨w, .pending n :: g, false⟩ ⟨w.clearedOf n, g, false⟩
  | dispose {w w' : World} {g g' : List Frame} {n : NodeId} (disposed : w'.isDisposed n)
    (past : ∃ new, w'.history = new ++ .cleared n :: w.history ∧ ∀ e ∈ new, ¬ e.Stirs)
    (frames : work g' = work g) : Works ⟨w, g, false⟩ ⟨w', g', false⟩
  | beginFlush {w : World} {g : List Frame} {rt : RuntimeId} :
    Works ⟨w, g, false⟩ ⟨w.flushBegun rt, .flushing rt :: g, false⟩
  | beginRound {w : World} {g : List Frame} {rt : RuntimeId} :
    Works ⟨w, .flushing rt :: g, false⟩
      ⟨w.roundBegun rt, .round rt (w.queue rt) :: .flushing rt :: g, false⟩
  | giveUp {w w' : World} {s g g' : List Frame} {rt : RuntimeId} (work : w.queue rt ≠ [])
    (frames : s = .round rt [] :: .flushing rt :: g ∨
      s = .flushing rt :: g ∧ (w.runtime rt).settings.flushCap = 0) :
    Works ⟨w, s, false⟩ ⟨w', g', false⟩
  | skipTurn {w : World} {g : List Frame} {rt : RuntimeId} {n : NodeId} {batch : List NodeId}
    (disposed : w.isDisposed n) :
    Works ⟨w, .round rt (n :: batch) :: g, false⟩ ⟨w, .round rt batch :: g, false⟩
  | beginTurn {w : World} {g : List Frame} {rt : RuntimeId} {n : NodeId} {batch : List NodeId} :
    Works ⟨w, .round rt (n :: batch) :: g, false⟩
      ⟨w.note (.turnBegan rt n), .pending n :: .round rt batch :: g, false⟩
  | endFlush {w : World} {g : List Frame} {rt : RuntimeId} (done : w.queue rt = []) :
    Works ⟨w, .flushing rt :: g, false⟩ ⟨w.flushEnded rt, g, false⟩

theorem Step.works {w w' : World} {g g' : List Frame}
    (h : Step ⟨w, g, false⟩ ⟨w', g', false⟩) (hs : Config.Sane ⟨w, g, false⟩) :
    Works ⟨w, g, false⟩ ⟨w', g', false⟩ := by
  cases h with
  -- Nothing is written down about it.
  | resolveObject _ _ | resolveArray _ _ | newMemo _ _ _ | newEffect _ _ _ _ _ _ | newStore _ _ _
  | beginCleaning _ | beginWatch _ _ | keep _ _ _ | endReport | watched _ _ _ | prime _ _
  | skipPass _ _ _ | mask _ _ _ | unmask | passOver _ | settle _ | forgo _ | newRuntime _ =>
    exact .rest (.of_eq rfl) rfl
  -- What is written down is about something else.
  | aside h => exact .rest h.hushed rfl
  | see _ _ _ _ _ _ _ | newObject _ _ _ | newArray _ _ _ | beginChange _ _ _ _ | markDirty _ _ _
  | addCleanup _ _ _ _ _ _ | endCleaning | watchPass _ _ _ _ | watchPostpone _ _ _ | endPass
  | beginCall _ _ _ | subscribe _ _ _ _ | greet _ _ | endCall => exact .rest (.of_cons rfl id) rfl
  | beginPass _ _ _ _ | postpone _ _ _ => exact .rest (.of_two rfl id id) rfl
  | advance h => exact .rest (.of_cons rfl h.not_stirs) rfl
  | @endReading w g n reader m r memo result =>
    refine .rest ?_ rfl
    cases reader with
    | none => exact .of_cons rfl id
    | some x => exact .of_two rfl id id
  -- What stands on top is done.
  | written => exact .ended (f := .writing _ _ []) (.of_eq rfl) trivial rfl
  | told => exact .ended (f := .telling _ []) (.of_eq rfl) trivial rfl
  | endRound => exact .ended (f := .round _ []) (.of_eq rfl) trivial rfl
  | endCompute _ _ _ => exact .ended (f := .computing ..) (.of_cons rfl id) trivial rfl
  | endRun _ | endWatch _ => exact .ended (f := .running ..) (.of_cons rfl id) trivial rfl
  | skipPending disposed => exact .ended (f := .pending _) (.of_eq rfl) disposed rfl
  -- The rest is listed.
  | track _ _ _ _ reader =>
    exact .track (hs.mem_actives_of_currentReader reader)
      ⟨[], World.history_trackedBy .., List.forall_mem_nil _⟩ rfl
  | @reuse w g n m r _ _ _ _ _ =>
    cases hr : w.currentReader m.runtime with
    | none =>
      refine .rest (.of_cons (e := .recalled n) ?_ id) rfl
      rw [World.history_note, World.history_trackedIn, hr]
      rfl
    | some x =>
      refine @Works.track _ _ _ _ x (.memo n) .value (hs.mem_actives_of_currentReader hr)
        ⟨[.recalled n], ?_, List.forall_mem_singleton.2 id⟩ rfl
      rw [World.history_note, World.history_trackedIn, hr]
      rfl
  | @beginCompute w g n m code memo stale _ =>
    refine .compute code memo stale (World.history_computing ..) ?_ rfl
    cases hr : w.currentReader m.runtime with
    | none =>
      refine .inl ?_
      rw [World.history_trackedIn, hr]
      rfl
    | some x =>
      refine .inr ⟨x, hs.mem_actives_of_currentReader hr, ?_⟩
      rw [World.history_trackedIn, hr]
      rfl
  | write _ _ _ edit => exact .write ⟨[], edit.history, List.forall_mem_nil _⟩ rfl
  | @endChange w g rt id before after _ _ =>
    exact @Works.write _ _ _ _ _ (.items id before after)
      ⟨[.changeEnded id], rfl, List.forall_mem_singleton.2 (fun h => h)⟩ rfl
  | trigger => exact .trigger
  | tellDisposed _ | tellQueued _ _ | tellDirty _ _ => exact .tell rfl
  | tellClean _ _ => exact .forward rfl
  | tellEffect _ _ => exact .enqueue
  | schedule code _ _ _ _ _ => exact .schedule code
  | markClean _ _ _ _ => exact .dirty rfl
  | takeUp _ _ _ => exact .takeUp rfl rfl
  | beginRun _ _ _ turn _ => exact .run (turn.imp And.left And.left)
  | @clearRunning w g n e effect busy =>
    exact .clear (by simp [World.isRunning, effect, busy])
  | @dispose w g n e _ effect _ _ =>
    refine .dispose (n := n) ?_ ⟨[], w.history_disposing n, List.forall_mem_nil _⟩ rfl
    have hd := w.isDisposed_disposing (Option.isSome_of_eq_some effect)
    exact ((World.Extends.cleaning (w.disposing n) n e.runtime).disposed n) hd
  | @retire w g u n effect _ =>
    refine .dispose (n := n) (w.isDisposed_disposing effect)
      ⟨[.disposed n], congrArg _ (w.history_disposing n), List.forall_mem_singleton.2 id⟩ rfl
  | beginFlush _ _ _ _ _ => exact .beginFlush
  | beginRound _ => exact .beginRound
  | giveUp work frames => exact .giveUp work frames
  | skipTurn disposed => exact .skipTurn disposed
  | beginTurn _ => exact .beginTurn
  | endFlush done => exact .endFlush (done rfl)

end Reactivity
