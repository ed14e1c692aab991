import Reactivity.Proofs.Registration.Acting
import Reactivity.Proofs.Registration.Asking

namespace Reactivity

/-- The event says that a function was started, that an effect was queued, or how a flush goes on. -/
def Event.Beats : Event → Prop
  | .started _ | .queued .. | .flushBegan _ | .roundBegan .. | .turnBegan .. | .gaveUp _
  | .flushEnded _ => True
  | _ => False

theorem Stage.Advance.not_beats {s s' : Stage} {e : Event} (h : s.Advance e s') : ¬ e.Beats := by
  cases h <;> exact id

namespace World

def runCount (w : World) (n : NodeId) : Nat :=
  (w.effect? n).elim 0 (·.runCount)

def pulse (w : World) (n : NodeId) : Bool × Nat :=
  (w.isRunning n, w.runCount n)

section Pulse

variable {w w' : World} {n : NodeId}

theorem pulse_congr (h : w'.effect? n = w.effect? n) : w'.pulse n = w.pulse n := by
  rw [pulse, pulse, isRunning, isRunning, runCount, runCount, h]

theorem pulse_of_nodes (h : w'.nodes = w.nodes) (n : NodeId) : w'.pulse n = w.pulse n :=
  pulse_congr (by rw [effect?, effect?, h])

theorem pulse_modifyEffect (w : World) (m n : NodeId) {f : Effect → Effect}
    (hf : m = n → ∀ e, (f e).running = e.running ∧ (f e).runCount = e.runCount) :
    (w.modifyEffect m f).pulse n = w.pulse n := by
  by_cases hmn : m = n
  · rw [pulse, pulse, isRunning, isRunning, runCount, runCount, effect?_modifyEffect, if_pos hmn]
    cases w.effect? n with
    | none => rfl
    | some e => exact Prod.ext (hf hmn e).1 (hf hmn e).2
  · exact pulse_congr (by rw [effect?_modifyEffect, if_neg hmn])

theorem SameNodes.pulse (h : w.SameNodes w') (n : NodeId) : w'.pulse n = w.pulse n := by
  rw [World.pulse, World.pulse, isRunning, isRunning, runCount, runCount]
  cases he : w.effect? n with
  | none =>
    have hb := h.1 n
    rw [he, Option.map_none, Option.map_eq_none_iff] at hb
    rw [hb]
  | some e =>
    obtain ⟨e', he', hb⟩ := h.effect? he
    rw [he', Effect.of_bare hb]
    rfl

theorem pulse_pushNode (w : World) {node : Node}
    (h : ∀ e, node = .effect e → e.running = false ∧ e.runCount = 0) (n : NodeId) :
    (w.pushNode node).pulse n = w.pulse n := by
  by_cases hn : n = w.nodes.size
  · have hnone : w.effect? n = none := by
      rw [effect?, hn, Array.getElem?_eq_none (Nat.le_refl _)]
    rw [pulse, pulse, isRunning, isRunning, runCount, runCount, effect?_pushNode, if_pos hn, hnone]
    cases node with
    | effect e => exact Prod.ext (h e rfl).1 (h e rfl).2
    | memo m => rfl
  · exact pulse_congr (by rw [effect?_pushNode, if_neg hn])

end Pulse

/-- `w.Placid w'`: no function is started or ends, nothing is queued, and no flush goes on. -/
structure Placid (w w' : World) : Prop where
  pulse : ∀ n, w'.pulse n = w.pulse n
  queue : ∀ rt, w'.queue rt = w.queue rt
  flushing : ∀ rt, (w'.runtime rt).flushing = (w.runtime rt).flushing
  past : ∃ new, w'.history = new ++ w.history ∧ ∀ e ∈ new, ¬ e.Beats

namespace Placid

variable {w w' w'' : World}

theorem of_runtimes (hp : ∀ n, w'.pulse n = w.pulse n) (hr : w'.runtimes = w.runtimes)
    (new : List Event) (hh : w'.history = new ++ w.history) (hn : ∀ e ∈ new, ¬ e.Beats) :
    w.Placid w' where
  pulse := hp
  queue := queue_congr hr
  flushing rt := by rw [runtime, runtime, hr]
  past := ⟨new, hh, hn⟩

theorem of_nodes (hn : w'.nodes = w.nodes) (hr : w'.runtimes = w.runtimes)
    (hh : w'.history = w.history) : w.Placid w' :=
  of_runtimes (pulse_of_nodes hn) hr [] hh (by simp)

theorem of_nodes_note (hn : w'.nodes = w.nodes) (hr : w'.runtimes = w.runtimes) {e : Event}
    (hh : w'.history = e :: w.history) (he : ¬ e.Beats) : w.Placid w' :=
  of_runtimes (pulse_of_nodes hn) hr [e] hh (List.forall_mem_singleton.2 he)

theorem of_sameNodes (hs : w.SameNodes w') (hr : w'.runtimes = w.runtimes) {e : Event}
    (hh : w'.history = e :: w.history) (he : ¬ e.Beats) : w.Placid w' :=
  of_runtimes hs.pulse hr [e] hh (List.forall_mem_singleton.2 he)

theorem refl (w : World) : w.Placid w :=
  of_nodes rfl rfl rfl

theorem trans (h : w.Placid w') (h' : w'.Placid w'') : w.Placid w'' where
  pulse n := (h'.pulse n).trans (h.pulse n)
  queue rt := (h'.queue rt).trans (h.queue rt)
  flushing rt := (h'.flushing rt).trans (h.flushing rt)
  past := by
    obtain ⟨new, hn, he⟩ := h.past
    obtain ⟨new', hn', he'⟩ := h'.past
    refine ⟨new' ++ new, by rw [hn', hn, List.append_assoc], fun e hm => ?_⟩
    exact (List.mem_append.1 hm).elim (he' e) (he e)

theorem note (w : World) {e : Event} (h : ¬ e.Beats) : w.Placid (w.note e) :=
  of_nodes_note rfl rfl rfl h

theorem modifyRuntime (w : World) (rt : RuntimeId) {f : Runtime → Runtime}
    (hf : ∀ r, (f r).queue = r.queue ∧ (f r).flushing = r.flushing) :
    w.Placid (w.modifyRuntime rt f) where
  pulse := pulse_of_nodes rfl
  queue j := w.queue_modifyRuntime rt j fun r => (hf r).1
  flushing j := by
    rw [runtime_modifyRuntime]
    split
    · exact (hf _).2
    · rfl
  past := ⟨[], rfl, by simp⟩

theorem pushContext (w : World) (rt : RuntimeId) (reader : Option NodeId) :
    w.Placid (w.pushContext rt reader) :=
  modifyRuntime w rt fun _ => ⟨rfl, rfl⟩

theorem popContext (w : World) (rt : RuntimeId) : w.Placid (w.popContext rt) :=
  modifyRuntime w rt fun _ => ⟨rfl, rfl⟩

theorem pushRuntime (w : World) (settings : Settings) (hook : Hook) :
    w.Placid { w with runtimes := w.runtimes.push { settings := settings, hook := hook } } where
  pulse := pulse_of_nodes rfl
  queue rt := by
    have h : w.Unasking rt _ := .pushRuntime w settings hook
    exact h.queue
  flushing rt := by
    have h : w.Unasking rt _ := .pushRuntime w settings hook
    exact h.flushing
  past := ⟨[], rfl, by simp⟩

theorem modifyEffect (w : World) (m : NodeId) {f : Effect → Effect}
    (hf : ∀ e, (f e).running = e.running ∧ (f e).runCount = e.runCount) :
    w.Placid (w.modifyEffect m f) :=
  of_runtimes (fun n => w.pulse_modifyEffect m n fun _ => hf) rfl [] rfl (by simp)

theorem modifyMemo (w : World) (m : NodeId) (f : Memo → Memo) : w.Placid (w.modifyMemo m f) :=
  of_runtimes (fun n => pulse_congr (w.effect?_modifyMemo m n f)) rfl [] rfl (by simp)

theorem pushNode (w : World) {node : Node}
    (h : ∀ e, node = .effect e → e.running = false ∧ e.runCount = 0) :
    w.Placid (w.pushNode node) :=
  of_runtimes (w.pulse_pushNode h) rfl [] rfl (by simp)

theorem trackedBy (w : World) (n : NodeId) (h : Handle) (key : Key) :
    w.Placid (w.trackedBy n h key) :=
  of_sameNodes (.trackedBy w n h key) (runtimes_trackedBy w n h key) (history_trackedBy w n h key)
    id

theorem trackedIn (w : World) (rt : RuntimeId) (h : Handle) (key : Key) :
    w.Placid (w.trackedIn rt h key) := by
  rw [World.trackedIn]
  split
  · exact refl w
  · exact trackedBy w _ h key

theorem clearedOf (w : World) (n : NodeId) : w.Placid (w.clearedOf n) :=
  of_sameNodes (.clearedOf w n) (runtimes_clearedOf w n) (history_clearedOf w n) id

theorem taken (w : World) (h : Handle) (key : Key) : w.Placid (w.taken h key) :=
  of_sameNodes (.taken w h key) (runtimes_taken w h key) (history_taken w h key) id

theorem computed (w : World) (n : NodeId) (rt : RuntimeId) (r : Result) :
    w.Placid (w.computed n rt r) :=
  ((popContext w rt).trans (note _ id)).trans (modifyMemo _ n _)

theorem gotBy (w : World) (reader : Option NodeId) (n : NodeId) (r : Result) :
    w.Placid (w.gotBy reader n r) := by
  cases reader with
  | none => exact note w id
  | some x => exact (note w id).trans (note _ id)

theorem disposing (w : World) (n : NodeId) : w.Placid (w.disposing n) := by
  rw [World.disposing]
  refine trans ?_ (clearedOf _ n)
  exact modifyEffect w n fun _ => ⟨rfl, rfl⟩

theorem cleaning (w : World) (n : NodeId) (rt : RuntimeId) : w.Placid (w.cleaning n rt) := by
  rw [World.cleaning]
  refine trans ?_ (pushContext _ rt none)
  exact modifyEffect w n fun _ => ⟨rfl, rfl⟩

theorem withStore (w : World) (state : ObjectId) : w.Placid (w.withStore state) := by
  rw [World.withStore]
  refine trans ?_ (pushNode _ ?_)
  · exact of_nodes rfl rfl rfl
  · rintro e ⟨⟩
    exact ⟨rfl, rfl⟩

theorem passBegun (w : World) (id : StoreId) : w.Placid (w.passBegun id) := by
  rw [World.passBegun]
  refine trans ?_ (pushContext _ _ _)
  exact of_nodes_note (e := .passBegan id) rfl rfl rfl fun h => h

theorem passEnded (w : World) (id : StoreId) (rt : RuntimeId) : w.Placid (w.passEnded id rt) := by
  rw [World.passEnded]
  refine (popContext w rt).trans ?_
  exact of_nodes_note (e := .passEnded id) rfl rfl rfl fun h => h

theorem passPostponed (w : World) (id : StoreId) : w.Placid (w.passPostponed id) :=
  of_nodes_note (e := .passPostponed id) rfl rfl rfl fun h => h

theorem withSubscription (w : World) (id : StoreId) (callback : Closure) :
    w.Placid (w.withSubscription id callback) :=
  of_nodes_note (e := .subscribed _) rfl rfl rfl fun h => h

theorem callBegun (w : World) (sub : SubscriptionId) (j : Json) : w.Placid (w.callBegun sub j) :=
  of_nodes_note (e := .delivered sub j) rfl rfl rfl fun h => h

theorem callEnded (w : World) (sub : SubscriptionId) : w.Placid (w.callEnded sub) :=
  of_nodes_note (e := .returned sub) rfl rfl rfl fun h => h

end Placid

end World

theorem Aside.placid {w w' : World} (h : Aside w w') : w.Placid w' := by
  have hn := h.nodes_eq
  have hr := h.runtimes_eq
  cases h with
  | bind name b valid => exact .of_nodes_note hn hr rfl id
  | unbind name => exact .of_nodes_note hn hr rfl id
  | log r => exact .of_nodes hn hr rfl
  | clearLog => exact .of_nodes hn hr rfl
  | external content => exact .of_nodes hn hr rfl
  | task rt tasks h => exact .of_nodes hn hr rfl
  | hold _ => exact .of_nodes hn hr rfl
  | release _ _ => exact .of_nodes hn hr rfl
  | cancel sub _ => exact .of_nodes_note hn hr (w.history_cancelled sub) id
  | _ => exact .note w id

theorem Edit.placid {w w' : World} {write : Write} (h : Edit w write w') : w.Placid w' :=
  .of_nodes_note h.nodes_eq h.runtimes_eq h.history id

/-- The flushes, rounds and runs of effects on the stack, innermost first, as far out as is looked
at. -/
def ongoing : List Frame → List Frame
  | .pending n :: g => .pending n :: ongoing g
  | .created n :: g => .created n :: ongoing g
  | .running n rt :: g => .running n rt :: ongoing g
  | .flushing rt :: g => .flushing rt :: ongoing g
  | .round rt batch :: g => .round rt batch :: ongoing g
  | .beyond :: _ => []
  | _ :: g => ongoing g
  | [] => []

theorem ongoing_sublist (g : List Frame) : (ongoing g).Sublist g := by
  induction g with
  | nil => exact .slnil
  | cons f g ih =>
    cases f with
    | pending | created | running | flushing | round => exact ih.cons_cons _
    | beyond => exact List.nil_sublist _
    | _ => exact ih.cons _

def Frame.IsLeft : Frame → Prop
  | .pending _ | .created _ | .round .. => True
  | _ => False

/-- What a step can do to flushes and to the runs of effects. -/
inductive Beats : Config → Config → Prop
  | rest {w w' : World} {g g' : List Frame} {u u' : Bool} (world : w.Placid w')
    (frames : ongoing g' = ongoing g) : Beats ⟨w, g, u⟩ ⟨w', g', u'⟩
  | enqueue {w w' : World} {g g' : List Frame} {rt : RuntimeId} {n : NodeId} (world : w.Placid w')
    (valid : rt < w'.runtimes.size) (fresh : n ∉ w'.queue rt) (frames : ongoing g' = ongoing g) :
    Beats ⟨w, g, false⟩ ⟨w'.queuedIn rt n, g', false⟩
  | compute {w w' : World} {g g' : List Frame} {n : NodeId} (memo : (w.memo? n).isSome)
    (world : w.Placid w') (frames : ongoing g' = ongoing g) :
    Beats ⟨w, g, false⟩ ⟨w'.note (.started n), g', false⟩
  | make {w w' : World} {g : List Frame} (world : w.Placid w') :
    Beats ⟨w, g, false⟩ ⟨w', .created w.nodes.size :: g, false⟩
  /-- What has not begun is not done, or a round has come to its end. -/
  | leave {w w' : World} {f : Frame} {g g' : List Frame} {u : Bool} (world : w.Placid w')
    (left : f.IsLeft) (frames : ongoing g = f :: ongoing g') : Beats ⟨w, g, u⟩ ⟨w', g', u⟩
  | start {w : World} {f : Frame} {g : List Frame} {n : NodeId} {rt : RuntimeId}
    (idle : w.isRunning n = false) (turn : f = .pending n ∨ f = .created n) :
    Beats ⟨w, f :: g, false⟩ ⟨w.running n rt, .running n rt :: g, false⟩
  | finish {w : World} {g g' : List Frame} {n : NodeId} {rt : RuntimeId}
    (frames : ongoing g = .running n rt :: ongoing g') : Beats ⟨w, g, false⟩ ⟨w.ran n rt, g', false⟩
  | abandon {w : World} {g : List Frame} {n : NodeId} {rt : RuntimeId} :
    Beats ⟨w, .running n rt :: g, true⟩ ⟨w.stopped n rt, g, true⟩
  | beginFlush {w : World} {g : List Frame} {rt : RuntimeId} (valid : rt < w.runtimes.size)
    (idle : (w.runtime rt).flushing = false) :
    Beats ⟨w, g, false⟩ ⟨w.flushBegun rt, .flushing rt :: g, false⟩
  | beginRound {w : World} {g : List Frame} {rt : RuntimeId} :
    Beats ⟨w, .flushing rt :: g, false⟩
      ⟨w.roundBegun rt, .round rt (w.queue rt) :: .flushing rt :: g, false⟩
  | giveUp {w : World} {g g' : List Frame} {rt : RuntimeId}
    (frames : ongoing g = .round rt [] :: .flushing rt :: ongoing g' ∨
      ongoing g = .flushing rt :: ongoing g') :
    Beats ⟨w, g, false⟩ ⟨w.gaveUp rt, .flushing rt :: g', false⟩
  | skipTurn {w : World} {g : List Frame} {rt : RuntimeId} {n : NodeId} {batch : List NodeId} :
    Beats ⟨w, .round rt (n :: batch) :: g, false⟩ ⟨w, .round rt batch :: g, false⟩
  | beginTurn {w : World} {g : List Frame} {rt : RuntimeId} {n : NodeId} {batch : List NodeId} :
    Beats ⟨w, .round rt (n :: batch) :: g, false⟩
      ⟨w.note (.turnBegan rt n), .pending n :: .round rt batch :: g, false⟩
  | endFlush {w : World} {g : List Frame} {rt : RuntimeId} {u : Bool} :
    Beats ⟨w, .flushing rt :: g, u⟩ ⟨w.flushEnded rt, g, u⟩

theorem Step.beats {c c' : Config} (h : Step c c') (hs : c.Sane) : Beats c c' := by
  cases h with
  | aside h => exact .rest h.placid rfl
  | track _ _ _ _ _ => exact .rest (.trackedBy _ _ _ _) rfl
  | see _ _ _ _ _ _ _ => exact .rest (.note _ id) rfl
  | newObject _ _ _ => exact .rest (.of_nodes_note rfl rfl rfl id) rfl
  | newArray _ _ _ => exact .rest (.of_nodes_note rfl rfl rfl id) rfl
  | resolveObject _ _ => exact .rest (.of_nodes rfl rfl rfl) rfl
  | resolveArray _ _ => exact .rest (.of_nodes rfl rfl rfl) rfl
  | write _ _ _ edit => exact .rest edit.placid rfl
  | beginChange _ _ _ _ => exact .rest (.note _ id) rfl
  | @endChange w g rt id before after _ _ =>
    have hp := World.Placid.note w (e := .changeEnded id) fun h => h
    exact .rest (hp.trans (.of_nodes_note rfl rfl rfl fun h => h)) rfl
  | abandonChange => exact .rest (.note _ id) rfl
  | trigger => exact .rest (.taken _ _ _) rfl
  | written => exact .rest (.refl _) rfl
  | told => exact .rest (.refl _) rfl
  | tellDisposed _ => exact .rest (.refl _) rfl
  | tellQueued _ _ => exact .rest (.refl _) rfl
  | tellEffect _ fresh => exact .enqueue (.refl _) (hs.frames _ List.mem_cons_self).1 fresh rfl
  | tellDirty _ _ => exact .rest (.modifyMemo _ _ _) rfl
  | tellClean _ _ => exact .rest (.modifyMemo _ _ _) rfl
  | @schedule w g n e _ _ effect _ _ fresh =>
    exact .enqueue (.note w id) (hs.world.effects n e effect).1 fresh rfl
  | markDirty _ _ _ => exact .rest ((World.Placid.note _ id).trans (.modifyMemo _ _ _)) rfl
  | markClean _ _ _ _ => exact .rest ((World.Placid.note _ id).trans (.modifyMemo _ _ _)) rfl
  | newMemo _ _ _ => exact .rest (.pushNode _ nofun) rfl
  | reuse _ _ _ _ _ => exact .rest ((World.Placid.trackedIn _ _ _ _).trans (.note _ id)) rfl
  | @beginCompute w g n m _ memo _ _ =>
    have hp := (World.Placid.trackedIn w m.runtime (.memo n) .value).trans (.clearedOf _ n)
    have hp := hp.trans (.modifyMemo _ n fun m => { m with dirty := false })
    exact .compute (Option.isSome_of_eq_some memo) (hp.trans (.pushContext _ m.runtime (some n))) rfl
  | endCompute _ _ _ => exact .rest (.computed _ _ _ _) rfl
  | abandonCompute => exact .rest (.popContext _ _) rfl
  | endReading _ _ => exact .rest (.gotBy _ _ _ _) rfl
  | newEffect _ _ _ _ _ _ =>
    refine .make (.pushNode _ ?_)
    rintro e ⟨⟩
    exact ⟨rfl, rfl⟩
  | newStore _ _ _ => exact .make (.withStore _ _)
  | @addCleanup w g rt n e c _ _ _ _ _ _ =>
    have hp := World.Placid.note w (e := .cleanupAdded n c) id
    exact .rest (hp.trans (.modifyEffect _ n fun _ => ⟨rfl, rfl⟩)) rfl
  | beginCleaning _ => exact .rest (.cleaning _ _ _) rfl
  | endCleaning => exact .rest ((World.Placid.popContext _ _).trans (.note _ id)) rfl
  | abandonCleaning _ => exact .rest (.popContext _ _) rfl
  | skipPending _ => exact .leave (.refl _) (f := .pending _) trivial rfl
  | clearRunning _ _ => exact .leave (.clearedOf _ _) (f := .pending _) trivial rfl
  | @beginRun w g n rt f e effect idle _ turn _ =>
    refine .start ?_ (turn.imp And.left And.left)
    rw [World.isRunning, effect]
    exact idle
  | endRun _ => exact .finish rfl
  | beginWatch _ _ => exact .rest (.refl _) rfl
  | advance h => exact .rest (.note _ h.not_beats) rfl
  | keep _ _ _ => exact .rest (.modifyEffect _ _ fun _ => ⟨rfl, rfl⟩) rfl
  | endReport => exact .rest (.refl _) rfl
  | watched _ _ _ => exact .rest (.refl _) rfl
  | prime _ _ => exact .rest (.modifyEffect _ _ fun _ => ⟨rfl, rfl⟩) rfl
  | skipPass _ _ _ => exact .rest (.refl _) rfl
  | watchPass _ _ _ _ => exact .rest (.passBegun _ _) rfl
  | watchPostpone _ _ _ => exact .rest (.passPostponed _ _) rfl
  | endWatch _ => exact .finish rfl
  | abandonRun => exact .abandon
  | dispose _ _ _ _ => exact .rest ((World.Placid.disposing _ _).trans (.cleaning _ _ _)) rfl
  | retire _ _ => exact .rest ((World.Placid.disposing _ _).trans (.note _ id)) rfl
  | mask _ _ _ => exact .rest (.pushContext _ _ _) rfl
  | unmask => exact .rest (.popContext _ _) rfl
  | beginPass _ _ _ _ => exact .rest ((World.Placid.note _ id).trans (.passBegun _ _)) rfl
  | postpone _ _ _ => exact .rest ((World.Placid.note _ id).trans (.passPostponed _ _)) rfl
  | endPass => exact .rest (.passEnded _ _ _) rfl
  | settle _ => exact .rest (.refl _) rfl
  | forgo _ => exact .rest (.of_nodes rfl rfl rfl) rfl
  | takeUp _ _ _ => exact .rest (.of_nodes_note rfl rfl rfl fun h => h) rfl
  | passOver _ => exact .rest (.refl _) rfl
  | beginCall _ _ _ | greet _ _ => exact .rest (.callBegun _ _ _) rfl
  | subscribe _ _ _ _ =>
    exact .rest ((World.Placid.withSubscription _ _ _).trans (.pushContext _ _ _)) rfl
  | endCall => exact .rest (.callEnded _ _) rfl
  | newRuntime _ => exact .rest (.pushRuntime _ _ _) rfl
  | beginFlush _ _ valid idle _ => exact .beginFlush valid idle
  | beginRound _ => exact .beginRound
  | giveUp _ frames =>
    refine .giveUp ?_
    rcases frames with rfl | ⟨rfl, -⟩
    · exact .inl rfl
    · exact .inr rfl
  | skipTurn _ => exact .skipTurn
  | beginTurn _ => exact .beginTurn
  | endRound => exact .leave (.refl _) (f := .round _ _) trivial rfl
  | endFlush _ => exact .endFlush
  | throw _ => exact .rest (.note _ id) rfl
  | exhaust _ => exact .rest (.note _ id) rfl
  | @drop w g f droppable =>
    cases f with
    | pending n => exact .leave (.refl w) (f := .pending n) trivial rfl
    | created n => exact .leave (.refl w) (f := .created n) trivial rfl
    | round rt batch => exact .leave (.refl w) (f := .round rt batch) trivial rfl
    | running | flushing | beyond => exact droppable.elim
    | _ => exact .rest (.refl w) rfl
  | resume => exact .rest (.refl _) rfl

/-- The queue of a runtime is what the past tells it to be, and each effect has one place in it. -/
structure World.Queued (w : World) (rt : RuntimeId) : Prop where
  waiting : waiting rt w.history = w.queue rt
  nodup : (w.queue rt).Nodup

namespace World.Queued

variable {w w' : World} {rt : RuntimeId}

theorem same (h : w.Queued rt) (hu : w'.queue rt = w.queue rt) (new : List Event)
    (hh : w'.history = new ++ w.history) (hn : ∀ e ∈ new, ¬ e.Schedules) : w'.Queued rt where
  waiting := by rw [hh, waiting_append hn, h.waiting, hu]
  nodup := hu ▸ h.nodup

theorem placid (h : w.Queued rt) (hp : w.Placid w') : w'.Queued rt := by
  obtain ⟨new, hh, hn⟩ := hp.past
  refine h.same (hp.queue rt) new hh fun e he hs => hn e he ?_
  cases e <;> trivial

theorem note (h : w.Queued rt) {e : Event} (he : ¬ e.Schedules) : (w.note e).Queued rt :=
  h.same rfl [e] rfl (List.forall_mem_singleton.2 he)

theorem queuedIn (h : w.Queued rt) {rt' : RuntimeId} (valid : rt' < w.runtimes.size) {n : NodeId}
    (fresh : n ∉ w.queue rt') : (w.queuedIn rt' n).Queued rt := by
  have hwait : Reactivity.waiting rt (w.queuedIn rt' n).history =
      if rt' = rt then Reactivity.waiting rt w.history ++ [n] else Reactivity.waiting rt w.history := by
    rcases w.history_queuedIn rt' n with hh | hh <;> rw [hh] <;> rfl
  have hqueue := w.queue_queuedIn rt' rt n
  by_cases hrt : rt' = rt
  · subst hrt
    rw [if_pos rfl, h.waiting] at hwait
    rw [if_pos ⟨rfl, valid⟩] at hqueue
    refine ⟨hwait.trans hqueue.symm, hqueue ▸ ?_⟩
    exact List.nodup_append.2 ⟨h.nodup, List.nodup_singleton n, fun m hm x hx hmx =>
      fresh (List.mem_singleton.1 hx ▸ hmx ▸ hm)⟩
  · rw [if_neg hrt, h.waiting] at hwait
    rw [if_neg fun h => hrt h.1] at hqueue
    exact ⟨hwait.trans hqueue.symm, hqueue ▸ h.nodup⟩

theorem emptied (h : w.Queued rt) {rt' : RuntimeId} (valid : rt' < w.runtimes.size) {e : Event}
    (he : (∃ batch, e = .roundBegan rt' batch) ∨ e = .gaveUp rt') :
    ((w.modifyRuntime rt' fun r => { r with queue := [] }).note e).Queued rt := by
  have hwait : Reactivity.waiting rt (e :: w.history) =
      if rt' = rt then [] else Reactivity.waiting rt w.history := by
    rcases he with ⟨batch, rfl⟩ | rfl <;> rfl
  have hqueue : ((w.modifyRuntime rt' fun r => { r with queue := [] }).note e).queue rt =
      if rt' = rt then [] else w.queue rt := by
    change ((w.modifyRuntime rt' _).runtime rt).queue = _
    rw [runtime_modifyRuntime]
    by_cases hrt : rt' = rt
    · rw [if_pos ⟨hrt, hrt ▸ valid⟩, if_pos hrt]
    · rw [if_neg fun h => hrt h.1, if_neg hrt]
      rfl
  constructor
  · change Reactivity.waiting rt (e :: w.history) = _
    rw [hwait, hqueue, h.waiting]
  · rw [hqueue]
    split
    · exact List.nodup_nil
    · exact h.nodup

end World.Queued

theorem Beats.queued {c c' : Config} (hb : Beats c c') (hs : c.Sane) {rt : RuntimeId}
    (h : c.world.Queued rt) : c'.world.Queued rt := by
  cases hb with
  | rest world _ => exact h.placid world
  | enqueue world valid fresh _ => exact (h.placid world).queuedIn valid fresh
  | compute _ world _ => exact (h.placid world).note id
  | make world => exact h.placid world
  | leave world _ _ => exact h.placid world
  | @start w f g n rt' _ _ =>
    exact h.same (World.Unasking.running w n rt').queue [.started n, .cleared n]
      (w.history_running n rt') (by simp [Event.Schedules])
  | @finish w g g' n rt' _ =>
    exact h.same (World.Unasking.ran w n rt').queue [.finished n] (w.history_ran n rt')
      (by simp [Event.Schedules])
  | @abandon w g n rt' =>
    exact h.same (World.Unasking.stopped w n rt').queue [] (w.history_stopped n rt') (by simp)
  | @beginFlush w g rt' _ _ =>
    refine h.same ?_ [.flushBegan rt'] rfl (by simp [Event.Schedules])
    exact (w.note (.flushBegan rt')).queue_modifyRuntime rt' rt fun _ => rfl
  | beginRound => exact h.emptied (hs.frames _ List.mem_cons_self) (.inl ⟨_, rfl⟩)
  | @giveUp w g g' rt' frames =>
    have hmem : .flushing rt' ∈ ongoing g := by rcases frames with hf | hf <;> simp [hf]
    exact h.emptied (hs.frames _ ((ongoing_sublist g).subset hmem)) (.inr rfl)
  | skipTurn => exact h
  | beginTurn => exact h.note id
  | @endFlush w g rt' u =>
    have hqueue : (w.flushEnded rt').queue rt = w.queue rt :=
      w.queue_modifyRuntime rt' rt fun _ => rfl
    exact ⟨h.waiting.trans hqueue.symm, hqueue ▸ h.nodup⟩

end Reactivity
