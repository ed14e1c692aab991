import Reactivity.Proofs.Registration.Disposal

namespace Reactivity

def Job.base : Job → Job
  | .watchStore id _ => .watchStore id false
  | job => job

theorem Job.isWatcher_base (j : Job) : j.base.isWatcher = j.isWatcher := by
  cases j <;> rfl

/-- What an effect does, which cleanups it has, and whether it was disposed of. -/
structure Plan where
  runtime : RuntimeId
  job : Job
  cleanups : List Closure
  disposed : Bool

def Effect.plan (e : Effect) : Plan where
  runtime := e.runtime
  job := e.job.base
  cleanups := e.cleanups
  disposed := e.disposed

def World.plan (w : World) (n : NodeId) : Option Plan :=
  (w.effect? n).map Effect.plan

/-- The event is about a cleanup of the node, or about a result of a watch. -/
def Event.IsAbout (n : NodeId) : Event → Prop
  | .cleanupAdded m _ | .cleanupStarted m _ | .cleanupReturned m _ | .cleanedUp m => m = n
  | .watchGot m _ | .watchCalled m .. | .watchReturned m => m = n
  | _ => False

def Event.Starts (n : NodeId) : Event → Prop
  | .started m => m = n
  | _ => False

namespace World

section Plan

variable {w : World} {n : NodeId}

theorem plan_eq_some {p : Plan} : w.plan n = some p ↔ ∃ e, w.effect? n = some e ∧ e.plan = p :=
  Option.map_eq_some_iff

theorem plan_eq_none : w.plan n = none ↔ w.effect? n = none :=
  Option.map_eq_none_iff

theorem plan_of_effect? {e : Effect} (h : w.effect? n = some e) : w.plan n = some e.plan := by
  rw [plan, h, Option.map_some]

theorem plan_modifyEffect (w : World) (n : NodeId) {f : Effect → Effect} {F : Plan → Plan}
    (hf : ∀ e, (f e).plan = F e.plan) : (w.modifyEffect n f).plan n = (w.plan n).map F := by
  rw [plan, plan, effect?_modifyEffect, if_pos rfl, Option.map_map, Option.map_map]
  exact congrArg (Option.map · (w.effect? n)) (funext hf)

end Plan

/-- `w.Leaves n w'`: nothing happens to the plan of the node, to its cleanups and to the results of
its watch, and its function is not started unless it is a memo. -/
structure Leaves (w : World) (n : NodeId) (w' : World) : Prop where
  plan : w'.plan n = w.plan n
  past : ∃ new, w'.history = new ++ w.history ∧ (∀ e ∈ new, ¬ e.IsAbout n) ∧
    (.started n ∈ new → w.plan n = none)

namespace Leaves

variable {w w' w'' : World} {n : NodeId}

theorem of_history (hp : w'.plan n = w.plan n) (hh : w'.history = w.history) : w.Leaves n w' :=
  ⟨hp, [], hh, List.forall_mem_nil _, fun he => absurd he List.not_mem_nil⟩

theorem of_nodes (hn : w'.nodes = w.nodes) (hh : w'.history = w.history) : w.Leaves n w' := by
  refine of_history ?_ hh
  rw [World.plan, World.plan, effect?, effect?, hn]

theorem refl (w : World) (n : NodeId) : w.Leaves n w :=
  of_nodes rfl rfl

theorem trans (h : w.Leaves n w') (h' : w'.Leaves n w'') : w.Leaves n w'' where
  plan := h'.plan.trans h.plan
  past := by
    obtain ⟨new, hn, hm, hs⟩ := h.past
    obtain ⟨new', hn', hm', hs'⟩ := h'.past
    refine ⟨new' ++ new, by rw [hn', hn, List.append_assoc], fun e he => ?_, fun he => ?_⟩
    · exact (List.mem_append.1 he).elim (hm' e) (hm e)
    · exact (List.mem_append.1 he).elim (fun he => h.plan ▸ hs' he) hs

theorem note (w : World) {e : Event} (h : ¬ e.IsAbout n)
    (hs : e.Starts n → w.plan n = none) : w.Leaves n (w.note e) where
  plan := rfl
  past := by
    refine ⟨[e], rfl, ?_, ?_⟩
    · intro e' he
      exact List.mem_singleton.1 he ▸ h
    · intro he
      obtain rfl := List.mem_singleton.1 he
      exact hs rfl

theorem of_nodes_note (hn : w'.nodes = w.nodes) {e : Event} (hh : w'.history = e :: w.history)
    (h : ¬ e.IsAbout n) (hs : ¬ e.Starts n) : w.Leaves n w' :=
  (note w h fun he => absurd he hs).trans (of_nodes hn hh)

theorem of_sameNodes (h : w.SameNodes w') {l : List Event}
    (hh : w'.history = l ++ w.history) (hn : ∀ e ∈ l, ¬ e.IsAbout n)
    (hs : .started n ∉ l) : w.Leaves n w' where
  plan := by
    have hp (x : World) : x.plan n = ((x.effect? n).map Effect.bare).map Effect.plan := by
      rw [Option.map_map]
      rfl
    rw [hp, hp, h.1 n]
  past := ⟨l, hh, hn, fun he => absurd he hs⟩

theorem modifyEffect (w : World) (m : NodeId) {f : Effect → Effect}
    (hf : m = n → ∀ e, w.effect? n = some e → (f e).plan = e.plan) :
    w.Leaves n (w.modifyEffect m f) := by
  refine of_history ?_ rfl
  rw [World.plan, World.plan, effect?_modifyEffect]
  split
  · next hm =>
    cases he : w.effect? n with
    | none => rfl
    | some e => exact congrArg some (hf hm e he)
  · rfl

theorem modifyMemo (w : World) (m : NodeId) (f : Memo → Memo) : w.Leaves n (w.modifyMemo m f) := by
  refine of_history ?_ rfl
  rw [World.plan, World.plan, effect?_modifyMemo]

theorem pushNode (w : World) {node : Node} (h : n ≠ w.nodes.size ∨ ∃ m, node = .memo m) :
    w.Leaves n (w.pushNode node) := by
  refine of_history ?_ rfl
  rw [World.plan, World.plan, effect?_pushNode]
  split
  · next hn =>
    obtain ⟨m, rfl⟩ := h.resolve_left (not_not_intro hn)
    have hnone : w.effect? n = none := by
      rw [effect?, hn, Array.getElem?_eq_none (Nat.le_refl _)]
    rw [hnone]
  · rfl

theorem trackedBy (w : World) (m : NodeId) (h : Handle) (key : Key) :
    w.Leaves n (w.trackedBy m h key) :=
  of_sameNodes (.trackedBy w m h key) (l := [.tracked m h key]) (w.history_trackedBy m h key)
    (by simp [Event.IsAbout]) (by simp)

theorem trackedIn (w : World) (rt : RuntimeId) (h : Handle) (key : Key) :
    w.Leaves n (w.trackedIn rt h key) := by
  rw [World.trackedIn]
  split
  · exact refl w n
  · exact trackedBy w _ h key

theorem clearedOf (w : World) (m : NodeId) : w.Leaves n (w.clearedOf m) :=
  of_sameNodes (.clearedOf w m) (l := [.cleared m]) (w.history_clearedOf m)
    (by simp [Event.IsAbout]) (by simp)

theorem taken (w : World) (h : Handle) (key : Key) : w.Leaves n (w.taken h key) :=
  of_sameNodes (.taken w h key) (l := [.triggered h key]) (w.history_taken h key)
    (by simp [Event.IsAbout]) (by simp)

theorem queuedIn (w : World) (rt : RuntimeId) (m : NodeId) : w.Leaves n (w.queuedIn rt m) := by
  have hn : w.SameNodes (w.queuedIn rt m) := .of_eq (nodes_queuedIn w rt m)
  rcases w.history_queuedIn rt m with h | h
  · exact of_sameNodes hn (l := [_]) h (by simp [Event.IsAbout]) (by simp)
  · exact of_sameNodes hn (l := [_, _]) h (by simp [Event.IsAbout]) (by simp)

theorem disposing (w : World) {m : NodeId} (hmn : m ≠ n) : w.Leaves n (w.disposing m) :=
  (modifyEffect w m fun hm => absurd hm hmn).trans (clearedOf _ m)

theorem cleaning (w : World) {m : NodeId} (hmn : m ≠ n) (rt : RuntimeId) :
    w.Leaves n (w.cleaning m rt) := by
  have h : w.Leaves n (w.modifyEffect m fun e => { e with cleanups := [] }) :=
    modifyEffect w m fun hm => absurd hm hmn
  exact h.trans (of_nodes rfl rfl)

theorem running (w : World) {m : NodeId} (hmn : m ≠ n) (rt : RuntimeId) :
    w.Leaves n (w.running m rt) := by
  rw [World.running]
  have hp : w.Leaves n ((w.clearedOf m).pushContext rt (some m)) :=
    (clearedOf w m).trans (of_nodes rfl rfl)
  refine (hp.trans (modifyEffect _ m fun hm => absurd hm hmn)).trans (note _ id fun he => ?_)
  exact absurd he hmn

theorem stopped (w : World) (m : NodeId) (rt : RuntimeId) : w.Leaves n (w.stopped m rt) := by
  have h : w.Leaves n (w.modifyEffect m fun e => { e with running := false }) :=
    modifyEffect w m fun _ _ _ => rfl
  exact h.trans (of_nodes rfl rfl)

theorem ran (w : World) (m : NodeId) (rt : RuntimeId) : w.Leaves n (w.ran m rt) := by
  rw [World.ran]
  have hr : w.Leaves n (w.modifyEffect m fun e => { e with running := false }) :=
    modifyEffect w m fun _ _ _ => rfl
  have hf := hr.trans (note _ (e := .finished m) id False.elim)
  have hc := hf.trans (modifyEffect _ m (f := fun e => { e with runCount := e.runCount + 1 })
    fun _ _ _ => rfl)
  exact hc.trans (of_nodes rfl rfl)

theorem computing (w : World) {m : NodeId} (hm : (w.memo? m).isSome) (rt : RuntimeId) :
    w.Leaves n (w.computing m rt) := by
  rw [World.computing]
  have hc : w.Leaves n ((w.clearedOf m).modifyMemo m fun m => { m with dirty := false }) :=
    (clearedOf w m).trans (modifyMemo _ m _)
  have hp : w.Leaves n (((w.clearedOf m).modifyMemo m fun m =>
      { m with dirty := false }).pushContext rt (some m)) := hc.trans (of_nodes rfl rfl)
  refine hp.trans (note _ id fun he => ?_)
  rw [hp.plan, plan_eq_none]
  obtain rfl : m = n := he
  by_contra hne
  rw [memo?_eq_none_of_effect? (Option.isSome_iff_ne_none.2 hne)] at hm
  cases hm

theorem computed (w : World) (m : NodeId) (rt : RuntimeId) (r : Result) :
    w.Leaves n (w.computed m rt r) := by
  rw [World.computed]
  have hp : w.Leaves n (w.popContext rt) := of_nodes rfl rfl
  exact (hp.trans (note _ (e := .finished m) id False.elim)).trans (modifyMemo _ m _)

theorem gotBy (w : World) (reader : Option NodeId) (m : NodeId) (r : Result) :
    w.Leaves n (w.gotBy reader m r) := by
  cases reader with
  | none => exact note w (e := .got m r) id False.elim
  | some x => exact (note w (e := .saw x (.memo m) r) id False.elim).trans (note _ id False.elim)

theorem withStore (w : World) (state : ObjectId) (h : n ≠ w.nodes.size) :
    w.Leaves n (w.withStore state) := by
  rw [World.withStore]
  refine trans ?_ (pushNode _ (.inl h))
  exact of_nodes rfl rfl

end Leaves

section Plan

variable (w : World) (n : NodeId) (rt : RuntimeId)

theorem plan_cleanupAdded (c : Closure) :
    ((w.note (.cleanupAdded n c)).modifyEffect n fun e =>
      { e with cleanups := e.cleanups ++ [c] }).plan n =
        (w.plan n).map fun p => { p with cleanups := p.cleanups ++ [c] } :=
  (w.note (.cleanupAdded n c)).plan_modifyEffect n fun _ => rfl

theorem plan_cleaning :
    (w.cleaning n rt).plan n = (w.plan n).map fun p => { p with cleanups := [] } :=
  w.plan_modifyEffect n fun _ => rfl

theorem plan_disposing :
    (w.disposing n).plan n = (w.plan n).map fun p => { p with disposed := true } :=
  (Leaves.clearedOf _ n).plan.trans (w.plan_modifyEffect n fun _ => rfl)

theorem plan_running : (w.running n rt).plan n = w.plan n := by
  have h := ((w.clearedOf n).pushContext rt (some n)).plan_modifyEffect n
    (f := fun e => { e with running := true }) (F := id) fun _ => rfl
  rw [Option.map_id] at h
  exact h.trans (Leaves.clearedOf w n).plan

end Plan

end World

def Frame.runsFor (n : NodeId) : Frame → Bool
  | .running m _ | .pending m | .created m => m == n
  | _ => false

def Frame.isFor (n : NodeId) : Frame → Bool
  | .amid s => s.node == n
  | f => f.runsFor n

def doneFor (n : NodeId) (g : List Frame) : List Frame :=
  g.filter (Frame.isFor n)

/-- What a step can do to an effect. -/
inductive Acts (n : NodeId) : Config → Config → Prop
  | leave {w w' : World} {g g' : List Frame} {u u' : Bool} (world : w.Leaves n w')
    (frames : doneFor n g' = doneFor n g) : Acts n ⟨w, g, u⟩ ⟨w', g', u'⟩
  | make {w w' : World} {g : List Frame} {p : Plan} (absent : w.plan n = none)
    (size : n = w.nodes.size) (plan : w'.plan n = some p) (new : p.job.isNew)
    (none : p.cleanups = []) (live : p.disposed = false) (history : w'.history = w.history) :
    Acts n ⟨w, g, false⟩ ⟨w', .created n :: g, false⟩
  | addCleanup {w : World} {g : List Frame} {rt : RuntimeId} {e : Effect} {c : Closure}
    (code : AtCode g) (free : Free w g) (reader : w.currentReader rt = some n)
    (effect : w.effect? n = some e) (live : e.disposed = false) :
    Acts n ⟨w, g, false⟩
      ⟨(w.note (.cleanupAdded n c)).modifyEffect n fun e =>
        { e with cleanups := e.cleanups ++ [c] }, g, false⟩
  | cleanedUp {w : World} {g : List Frame} {u : Bool}
    (none : ∀ e, w.effect? n = some e → e.cleanups = []) :
    Acts n ⟨w, g, u⟩ ⟨w.note (.cleanedUp n), g, u⟩
  | turn {w : World} {g : List Frame} {rt : RuntimeId} {batch : List NodeId}
    (live : w.isDisposed n = false) :
    Acts n ⟨w, .round rt (n :: batch) :: g, false⟩
      ⟨w.note (.turnBegan rt n), .pending n :: .round rt batch :: g, false⟩
  /-- A run is over, one way or another, or does not take place. -/
  | ended {w w' : World} {f : Frame} {g g' : List Frame} {u u' : Bool} (world : w.Leaves n w')
    (runs : f.runsFor n) (frames : doneFor n g = f :: doneFor n g') : Acts n ⟨w, g, u⟩ ⟨w', g', u'⟩
  | start {w : World} {f : Frame} {g : List Frame} {rt : RuntimeId}
    (turn : f = .pending n ∨ f = .created n) (cleaned : ∃ old, w.history = .cleanedUp n :: old) :
    Acts n ⟨w, f :: g, false⟩ ⟨w.running n rt, .running n rt :: g, false⟩
  | clean {w : World} {g : List Frame} {e : Effect} (effect : w.effect? n = some e) :
    Acts n ⟨w, .pending n :: g, false⟩
      ⟨w.cleaning n e.runtime, .amid (.cleaning n e.runtime e.cleanups) :: .pending n :: g, false⟩
  | dispose {w : World} {g : List Frame} {e : Effect} (effect : w.effect? n = some e) :
    Acts n ⟨w, g, false⟩
      ⟨(w.disposing n).cleaning n e.runtime, .amid (.cleaning n e.runtime e.cleanups) :: g, false⟩
  | endCleaning {w : World} {g : List Frame} {rt : RuntimeId} :
    Acts n ⟨w, .amid (.cleaning n rt []) :: g, false⟩
      ⟨(w.popContext rt).note (.cleanedUp n), g, false⟩
  | abandonCleaning {w : World} {g : List Frame} {s : Stage} {rt : RuntimeId} (node : s.node = n)
    (mask : s.mask? = some rt) : Acts n ⟨w, .amid s :: g, true⟩ ⟨w.popContext rt, g, true⟩
  | retire {w : World} {g : List Frame} {u : Bool}
    (watcher : ∃ id, id < w.stores.size ∧ (w.store id).watcher = n) :
    Acts n ⟨w, g, u⟩ ⟨(w.disposing n).note (.disposed n), g, u⟩
  | beginWatch {w : World} {g : List Frame} {rt : RuntimeId} {e : Effect}
    (effect : w.effect? n = some e) :
    Acts n ⟨w, .running n rt :: g, false⟩
      ⟨w, .amid (.getting n e.job) :: .running n rt :: g, false⟩
  | advance {w : World} {g : List Frame} {s s' : Stage} {event : Event} (h : s.Advance event s')
    (node : s.node = n) : Acts n ⟨w, .amid s :: g, false⟩ ⟨w.note event, .amid s' :: g, false⟩
  | keep {w : World} {g : List Frame} {job : Job} {duties : List Duty}
    (follows : ∀ e, w.effect? n = some e → e.job.Follows job) :
    Acts n ⟨w, .amid (.reporting n (.keep job :: duties)) :: g, false⟩
      ⟨w.modifyEffect n fun e => { e with job := job }, .amid (.reporting n duties) :: g, false⟩
  | endReport {w : World} {g : List Frame} :
    Acts n ⟨w, .amid (.reporting n []) :: g, false⟩ ⟨w, g, false⟩
  | drop {w : World} {g : List Frame} {s : Stage} (node : s.node = n) (mask : s.mask? = none) :
    Acts n ⟨w, .amid s :: g, true⟩ ⟨w, g, true⟩

theorem doneFor_cons_of_pos {n : NodeId} {f : Frame} (h : f.isFor n) (g : List Frame) :
    doneFor n (f :: g) = f :: doneFor n g :=
  List.filter_cons_of_pos h

theorem doneFor_cons_of_neg {n : NodeId} {f : Frame} (h : ¬ f.isFor n) (g : List Frame) :
    doneFor n (f :: g) = doneFor n g :=
  List.filter_cons_of_neg h

theorem doneFor_amid {n : NodeId} {s : Stage} (h : s.node = n) (g : List Frame) :
    doneFor n (.amid s :: g) = .amid s :: doneFor n g :=
  doneFor_cons_of_pos (f := .amid s) (beq_iff_eq.2 h) g

theorem Frame.isFor_of_runsFor {n : NodeId} {f : Frame} (h : f.runsFor n) : f.isFor n := by
  cases f <;> first | exact h | cases h

theorem doneFor_run {n : NodeId} {f : Frame} (h : f.runsFor n) (g : List Frame) :
    doneFor n (f :: g) = f :: doneFor n g :=
  doneFor_cons_of_pos (Frame.isFor_of_runsFor h) g

theorem doneFor_eq_nil {n : NodeId} {w : World} {g : List Frame} (hv : ∀ f ∈ g, f.Valid w)
    (h : w.effect? n = none) : doneFor n g = [] := by
  have absent {m : NodeId} (hm : (w.effect? m).isSome) (hmn : m = n) : False := by
    rw [hmn, h] at hm
    cases hm
  refine List.filter_eq_nil_iff.2 fun f hf hfor => ?_
  have hvalid := hv f hf
  cases f with
  | amid => exact absent hvalid.1 (beq_iff_eq.1 hfor)
  | running => exact absent hvalid.2 (beq_iff_eq.1 hfor)
  | pending | created => exact absent hvalid (beq_iff_eq.1 hfor)
  | _ => cases hfor

theorem Acts.pop {n : NodeId} {w w' : World} {f : Frame} {g : List Frame} {u u' : Bool}
    (hw : w.Leaves n w') (hf : f.isFor n = f.runsFor n) : Acts n ⟨w, f :: g, u⟩ ⟨w', g, u'⟩ := by
  cases h : f.isFor n with
  | false => exact .leave hw (doneFor_cons_of_neg (by simp [h]) g).symm
  | true => exact .ended hw (hf ▸ h) (doneFor_cons_of_pos h g)

theorem Aside.leaves {w w' : World} (h : Aside w w') (n : NodeId) :
    w.Leaves n w' ∨
      w' = w.note (.cleanedUp n) ∧ ∀ e, w.effect? n = some e → e.cleanups = [] := by
  cases h with
  | cleanedUp m none =>
    by_cases hm : m = n
    · subst hm
      exact .inr ⟨rfl, none⟩
    · exact .inl (.note w hm False.elim)
  | cancel sub active =>
    have hn := (Aside.cancel sub active).nodes_eq
    exact .inl (.of_nodes_note hn (w.history_cancelled sub) id False.elim)
  | bind name b valid => exact .inl (.of_nodes_note rfl rfl id False.elim)
  | unbind name => exact .inl (.of_nodes_note rfl rfl id False.elim)
  | log r => exact .inl (.of_nodes rfl rfl)
  | clearLog => exact .inl (.of_nodes rfl rfl)
  | external content => exact .inl (.of_nodes rfl rfl)
  | task rt tasks h => exact .inl (.of_nodes rfl rfl)
  | hold _ => exact .inl (.of_nodes rfl rfl)
  | release _ _ => exact .inl (.of_nodes rfl rfl)
  | _ => exact .inl (.note w id False.elim)

theorem Edit.leaves {w w' : World} {write : Write} (h : Edit w write w') (n : NodeId) :
    w.Leaves n w' :=
  .of_nodes_note h.nodes_eq h.history id False.elim

theorem Stage.Advance.isAbout {s s' : Stage} {e : Event} (h : s.Advance e s') {n : NodeId}
    (hn : s.node ≠ n) : ¬ e.IsAbout n ∧ ¬ e.Starts n := by
  cases h <;> exact ⟨hn, id⟩

theorem Step.acts {c c' : Config} (h : Step c c') (hs : c.Sane) (n : NodeId) : Acts n c c' := by
  -- A frame on top that is not for the effect makes no difference.
  have other {f : Frame} (hf : f.isFor n = false) (g : List Frame) :
      doneFor n (f :: g) = doneFor n g := doneFor_cons_of_neg (by simp [hf]) g
  have amid (s : Stage) (hn : s.node ≠ n) (g : List Frame) :
      doneFor n (.amid s :: g) = doneFor n g := other (f := .amid s) (beq_eq_false_iff_ne.2 hn) g
  cases h with
  | aside h =>
    rcases h.leaves n with h | ⟨rfl, none⟩
    · exact .leave h rfl
    · exact .cleanedUp none
  | track _ _ _ _ _ => exact .leave (.trackedBy _ _ _ _) rfl
  | see _ _ _ _ _ _ _ => exact .leave (.note _ id False.elim) rfl
  | newObject _ _ _ => exact .leave (.of_nodes_note rfl rfl id False.elim) rfl
  | newArray _ _ _ => exact .leave (.of_nodes_note rfl rfl id False.elim) rfl
  | resolveObject _ _ => exact .leave (.of_nodes rfl rfl) rfl
  | resolveArray _ _ => exact .leave (.of_nodes rfl rfl) rfl
  | write _ _ _ edit => exact .leave (edit.leaves n) rfl
  | beginChange _ _ _ _ => exact .leave (.note _ id False.elim) rfl
  | @endChange w g rt id before after _ _ =>
    have hl : w.Leaves n (w.note (.changeEnded id)) := .note w (fun h => h) False.elim
    exact .leave (hl.trans (.of_nodes_note rfl rfl (fun h => h) False.elim)) rfl
  | abandonChange => exact .leave (.note _ id False.elim) rfl
  | trigger => exact .leave (.taken _ _ _) rfl
  | written => exact .leave (.refl _ n) rfl
  | told => exact .leave (.refl _ n) rfl
  | tellDisposed _ => exact .leave (.refl _ n) rfl
  | tellQueued _ _ => exact .leave (.refl _ n) rfl
  | tellEffect _ _ => exact .leave (.queuedIn _ _ _) rfl
  | tellDirty _ _ => exact .leave (.modifyMemo _ _ _) rfl
  | tellClean _ _ => exact .leave (.modifyMemo _ _ _) rfl
  | @schedule w g m e _ _ _ _ _ _ =>
    have hl : w.Leaves n (w.note (.scheduled m)) := .note w id False.elim
    exact .leave (hl.trans (.queuedIn _ _ _)) rfl
  | @markDirty w g m x _ _ _ =>
    have hl : w.Leaves n (w.note (.dirtied m)) := .note w id False.elim
    exact .leave (hl.trans (.modifyMemo _ _ _)) rfl
  | @markClean w g m x _ _ _ _ =>
    have hl : w.Leaves n (w.note (.dirtied m)) := .note w id False.elim
    exact .leave (hl.trans (.modifyMemo _ _ _)) rfl
  | newMemo _ _ _ => exact .leave (.pushNode _ (.inr ⟨_, rfl⟩)) rfl
  | @reuse w g m x r _ _ _ _ _ =>
    have hl : w.Leaves n (w.trackedIn x.runtime (.memo m) .value) := .trackedIn w _ _ _
    exact .leave (hl.trans (.note _ id False.elim)) rfl
  | @beginCompute w g m x _ memo _ _ =>
    have hl : w.Leaves n (w.trackedIn x.runtime (.memo m) .value) := .trackedIn w _ _ _
    have hm := (World.Extends.trackedIn w x.runtime (.memo m) .value).isSome_memo?
      (Option.isSome_of_eq_some memo)
    exact .leave (hl.trans (.computing _ hm _)) rfl
  | endCompute _ _ _ => exact .leave (.computed _ _ _ _) rfl
  | abandonCompute => exact .leave (.of_nodes rfl rfl) rfl
  | endReading _ _ => exact .leave (.gotBy _ _ _ _) rfl
  | @newEffect w g rt job _ _ valid closures other' new =>
    by_cases hn : n = w.nodes.size
    · subst hn
      refine .make (p := ⟨rt, job.base, [], false⟩) ?_ rfl ?_ ?_ rfl rfl rfl
      · rw [World.plan_eq_none, World.effect?, Array.getElem?_eq_none (Nat.le_refl _)]
      · rw [World.plan, World.effect?_pushNode, if_pos rfl]
        rfl
      · cases job <;> exact new
    · refine .leave (.pushNode _ (.inl hn)) (other ?_ _)
      exact beq_eq_false_iff_ne.2 (Ne.symm hn)
  | @newStore w g state _ _ valid =>
    by_cases hn : n = w.nodes.size
    · subst hn
      refine .make (p := ⟨(w.object state).runtime, .watchStore w.stores.size false, [], false⟩)
        ?_ rfl ?_ trivial rfl rfl rfl
      · rw [World.plan_eq_none, World.effect?, Array.getElem?_eq_none (Nat.le_refl _)]
      · rw [World.plan, World.withStore, World.effect?_pushNode, if_pos rfl]
        rfl
    · refine .leave (.withStore _ _ hn) (other ?_ _)
      exact beq_eq_false_iff_ne.2 (Ne.symm hn)
  | @addCleanup w g rt m e c code free reader effect live _ =>
    by_cases hmn : m = n
    · subst hmn
      exact .addCleanup code free reader effect live
    · have hl : w.Leaves n (w.note (.cleanupAdded m c)) := .note w hmn False.elim
      exact .leave (hl.trans (.modifyEffect _ m fun hm => absurd hm hmn)) rfl
  | @beginCleaning w g m e effect =>
    by_cases hmn : m = n
    · subst hmn
      exact .clean effect
    · exact .leave (.cleaning w hmn _) (amid (.cleaning m _ _) hmn _)
  | @endCleaning w g m rt =>
    by_cases hmn : m = n
    · subst hmn
      exact .endCleaning
    · have hl : w.Leaves n (w.popContext rt) := .of_nodes rfl rfl
      exact .leave (hl.trans (.note _ hmn False.elim)) (amid (.cleaning m _ _) hmn _).symm
  | @abandonCleaning w g s rt mask =>
    by_cases hn : s.node = n
    · exact .abandonCleaning hn mask
    · exact .leave (.of_nodes rfl rfl) (amid s hn _).symm
  | @skipPending w g m _ => exact .pop (.refl w n) rfl
  | @clearRunning w g m e _ _ => exact .pop (.clearedOf w m) rfl
  | @beginRun w g m rt f e effect idle valid turn cleaned =>
    have hf : f = .pending m ∨ f = .created m := turn.imp And.left And.left
    by_cases hmn : m = n
    · subst hmn
      exact .start hf cleaned
    · have hm : (m == n) = false := beq_eq_false_iff_ne.2 hmn
      have hof : f.isFor n = false := by rcases hf with rfl | rfl <;> exact hm
      have hon : (Frame.running m rt).isFor n = false := hm
      exact .leave (.running w hmn rt) ((other hon g).trans (other hof g).symm)
  | @endRun w g m rt _ => exact .pop (.ran w m rt) rfl
  | @beginWatch w g m rt e effect _ =>
    by_cases hmn : m = n
    · subst hmn
      exact .beginWatch effect
    · exact .leave (.refl w n) (amid (.getting m _) hmn _)
  | @advance w g s s' event h =>
    by_cases hn : s.node = n
    · exact .advance h hn
    · have hn' : s'.node ≠ n := h.node_eq ▸ hn
      exact .leave (.note w (h.isAbout hn).1 fun he => absurd he (h.isAbout hn).2)
        ((amid s' hn' g).trans (amid s hn g).symm)
  | @keep w g m job duties closures _ follows =>
    by_cases hmn : m = n
    · subst hmn
      exact .keep follows
    · exact .leave (.modifyEffect w m fun hm => absurd hm hmn)
        ((amid (.reporting m _) hmn g).trans (amid (.reporting m _) hmn g).symm)
  | @endReport w g m =>
    by_cases hmn : m = n
    · subst hmn
      exact .endReport
    · exact .leave (.refl w n) (amid (.reporting m _) hmn _).symm
  | watched _ _ _ => exact .leave (.refl _ n) rfl
  | @prime w g m e id effect job =>
    refine .leave (.modifyEffect w m fun hm e' he' => ?_) rfl
    obtain rfl : e' = e := Option.some.inj (he'.symm.trans (hm ▸ effect))
    rw [Effect.plan, Effect.plan, job]
    rfl
  | skipPass _ _ _ => exact .leave (.refl _ n) rfl
  | watchPass _ _ _ _ => exact .leave (.of_nodes_note rfl rfl (fun h => h) False.elim) rfl
  | watchPostpone _ _ _ => exact .leave (.of_nodes_note rfl rfl (fun h => h) False.elim) rfl
  | @endWatch w g m rt _ =>
    have hnotified : doneFor n (.notified m :: .running m rt :: g) =
        doneFor n (.running m rt :: g) := rfl
    cases hf : (Frame.running m rt).isFor n with
    | true =>
      have hfor := hnotified.trans (doneFor_cons_of_pos hf g)
      exact .ended (f := .running m rt) (.ran w m rt) hf hfor
    | false => exact .leave (.ran w m rt) (hnotified.trans (other hf g)).symm
  | @abandonRun w g m rt => exact .pop (.stopped w m rt) rfl
  | @dispose w g m e _ effect _ _ =>
    by_cases hmn : m = n
    · subst hmn
      exact .dispose effect
    · have hl := (World.Leaves.disposing w hmn).trans (.cleaning _ hmn e.runtime)
      exact .leave hl (amid (.cleaning m _ _) hmn _)
  | @retire w g u m _ watcher =>
    by_cases hmn : m = n
    · subst hmn
      exact .retire watcher
    · exact .leave ((World.Leaves.disposing w hmn).trans (.note _ id False.elim)) rfl
  | mask _ _ _ => exact .leave (.of_nodes rfl rfl) rfl
  | unmask => exact .leave (.of_nodes rfl rfl) rfl
  | @beginPass w g id _ _ _ _ =>
    have hl : w.Leaves n (w.note (.passAsked id)) := .note w (fun h => h) False.elim
    exact .leave (hl.trans (.of_nodes_note rfl rfl (fun h => h) False.elim)) rfl
  | @postpone w g id _ _ _ =>
    have hl : w.Leaves n (w.note (.passAsked id)) := .note w (fun h => h) False.elim
    exact .leave (hl.trans (.of_nodes_note rfl rfl (fun h => h) False.elim)) rfl
  | endPass => exact .leave (.of_nodes_note rfl rfl (fun h => h) False.elim) rfl
  | settle _ => exact .leave (.refl _ n) rfl
  | forgo _ => exact .leave (.of_nodes rfl rfl) rfl
  | takeUp _ _ _ => exact .leave (.of_nodes_note rfl rfl (fun h => h) False.elim) rfl
  | passOver _ => exact .leave (.refl _ n) rfl
  | beginCall _ _ _ | greet _ _ => exact .leave (.of_nodes_note rfl rfl (fun h => h) False.elim) rfl
  | subscribe _ _ _ _ => exact .leave (.of_nodes_note rfl rfl (fun h => h) False.elim) rfl
  | endCall => exact .leave (.of_nodes_note rfl rfl (fun h => h) False.elim) rfl
  | newRuntime _ => exact .leave (.of_nodes rfl rfl) rfl
  | beginFlush _ _ _ _ _ => exact .leave (.of_nodes_note rfl rfl id False.elim) rfl
  | beginRound _ => exact .leave (.of_nodes_note rfl rfl id False.elim) rfl
  | giveUp _ frames =>
    refine .leave (.of_nodes_note rfl rfl id False.elim) ?_
    rcases frames with rfl | ⟨rfl, -⟩ <;> rfl
  | skipTurn _ => exact .leave (.refl _ n) rfl
  | @beginTurn w g rt m batch live =>
    by_cases hmn : m = n
    · subst hmn
      exact .turn live
    · exact .leave (.note w id False.elim) (other (f := .pending m) (beq_eq_false_iff_ne.2 hmn) _)
  | endRound => exact .leave (.refl _ n) rfl
  | endFlush _ => exact .leave (.of_nodes_note rfl rfl id False.elim) rfl
  | throw _ => exact .leave (.note _ id False.elim) rfl
  | exhaust _ => exact .leave (.note _ id False.elim) rfl
  | @drop w g f droppable =>
    cases f with
    | amid s =>
      by_cases hn : s.node = n
      · exact .drop hn droppable
      · exact .leave (.refl w n) (amid s hn g).symm
    | running => exact droppable.elim
    | _ => exact .pop (.refl w n) rfl
  | resume => exact .leave (.refl _ n) rfl

end Reactivity
