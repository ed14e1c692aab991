import Reactivity.Proofs.Updates.Attached

namespace Reactivity

/-- The events since a turn of an effect in a round last began, newest first. -/
def sinceTurn (n : NodeId) (history : List Event) : List Event :=
  history.takeWhile fun e =>
    match e with
    | .turnBegan _ m => m != n
    | _ => true

/-- The function of an effect was started after `old`, right after the effect was taken from
everything, and has not returned; `run` has happened since. -/
structure UnderWay (n : NodeId) (history run old : List Event) : Prop where
  past : history = run ++ .started n :: .cleared n :: old
  started : .started n ∉ run
  finished : .finished n ∉ run

/-- The function of an effect is under way, and the effect was taken from everything once more, since
it was started or between its turn and the start: so it was disposed of by its own function or by its
cleanups, or in the course of them. -/
def Torn (n : NodeId) (history : List Event) : Prop :=
  ∃ run old, UnderWay n history run old ∧ (.cleared n ∈ run ∨ .cleared n ∈ sinceTurn n old)

/-- The effect has read the part in a torn run, and was not taken from everything since. -/
def Late (n : NodeId) (p : Handle × Key) (history : List Event) : Prop :=
  ∃ since old, history = since ++ .tracked n p.1 p.2 :: old ∧ .cleared n ∉ since ∧ Torn n old

/-- The event says that the function of the node was started or has returned, that its turn has come,
or that it was taken from everything. -/
def Event.Marks (n : NodeId) : Event → Prop
  | .started m | .finished m | .cleared m | .turnBegan _ m => m = n
  | _ => False

section Past

variable {n : NodeId} {p : Handle × Key} {e : Event} {history run old : List Event}

theorem sinceTurn_cons (h : ∀ rt, e ≠ .turnBegan rt n) :
    sinceTurn n (e :: history) = e :: sinceTurn n history := by
  rw [sinceTurn, List.takeWhile_cons_of_pos]
  · rfl
  · cases e with
    | turnBegan rt m =>
      have hm : m ≠ n := fun hm => h rt (hm ▸ rfl)
      simpa using hm
    | _ => rfl

theorem mem_sinceTurn_append (new : List Event) (hn : ∀ rt, .turnBegan rt n ∉ new)
    (h : e ∈ sinceTurn n history) : e ∈ sinceTurn n (new ++ history) := by
  induction new with
  | nil => exact h
  | cons a new ih =>
    have ha (rt : RuntimeId) : a ≠ .turnBegan rt n := fun ha => hn rt (ha ▸ List.mem_cons_self)
    rw [List.cons_append, sinceTurn_cons ha]
    exact List.mem_cons_of_mem _ (ih fun rt hm => hn rt (List.mem_cons_of_mem _ hm))

theorem underWay_started (n : NodeId) (history : List Event) :
    UnderWay n (.started n :: .cleared n :: history) [] history :=
  ⟨rfl, List.not_mem_nil, List.not_mem_nil⟩

theorem UnderWay.append (h : UnderWay n history run old) (new : List Event)
    (hs : .started n ∉ new) (hf : .finished n ∉ new) :
    UnderWay n (new ++ history) (new ++ run) old where
  past := by rw [h.past, List.append_assoc]
  started := by simp [hs, h.started]
  finished := by simp [hf, h.finished]

theorem Torn.append (h : Torn n history) (new : List Event) (hs : .started n ∉ new)
    (hf : .finished n ∉ new) : Torn n (new ++ history) := by
  obtain ⟨run, old, hu, hc⟩ := h
  exact ⟨new ++ run, old, hu.append new hs hf, hc.imp_left (List.mem_append_right _)⟩

/-- A run that is under way is torn when the effect is taken from everything. -/
theorem UnderWay.torn (h : UnderWay n history run old) : Torn n (.cleared n :: history) := by
  have hu : UnderWay n (.cleared n :: history) (.cleared n :: run) old :=
    h.append [.cleared n] (by simp) (by simp)
  exact ⟨_, _, hu, .inl List.mem_cons_self⟩

theorem Late.append (h : Late n p history) (new : List Event) (hc : .cleared n ∉ new) :
    Late n p (new ++ history) := by
  obtain ⟨since, old, rfl, hs, ht⟩ := h
  exact ⟨new ++ since, old, (List.append_assoc ..).symm, by simp [hc, hs], ht⟩

end Past

/-- What a node is registered on, and whether it is an effect that was disposed of, and one that is
running. -/
def Node.standing : Node → List (Handle × Key) × Bool × Bool
  | .effect e => (e.sources, e.disposed, e.running)
  | .memo m => (m.sources, false, false)

namespace World

def standing (w : World) (n : NodeId) : List (Handle × Key) × Bool × Bool :=
  (w.nodes[n]?).elim ([], false, false) Node.standing

section Standing

variable (w : World) (n : NodeId)

theorem standing_eq : w.standing n = (w.sources n, w.isDisposed n, w.isRunning n) := by
  rw [standing, sources, isDisposed, isRunning, effect?]
  rcases w.nodes[n]? with _ | _ | _ <;> rfl

theorem standing_of_nodes {w w' : World} (h : w'.nodes = w.nodes) :
    w'.standing n = w.standing n := by
  rw [standing, standing, h]

theorem standing_modify (m : NodeId) {f : Node → Node}
    (hf : m = n → ∀ node, (f node).standing = node.standing) :
    { w with nodes := w.nodes.modify m f }.standing n = w.standing n := by
  simp only [standing, Array.getElem?_modify]
  split
  · next hm =>
    cases w.nodes[n]? with
    | none => rfl
    | some node => exact hf hm node
  · rfl

theorem standing_modifyEffect (m : NodeId) {f : Effect → Effect}
    (hf : m = n → ∀ e, (Node.effect (f e)).standing = (Node.effect e).standing) :
    (w.modifyEffect m f).standing n = w.standing n := by
  refine w.standing_modify n m fun hm node => ?_
  cases node with
  | effect e => exact hf hm e
  | memo x => rfl

theorem standing_modifyMemo (m : NodeId) {f : Memo → Memo}
    (hf : m = n → ∀ x, (f x).sources = x.sources) :
    (w.modifyMemo m f).standing n = w.standing n := by
  refine w.standing_modify n m fun hm node => ?_
  cases node with
  | effect e => rfl
  | memo x => exact congrArg (·, false, false) (hf hm x)

theorem standing_modifyReaders (h : Handle) (f : Readers → Readers) :
    (w.modifyReaders h f).standing n = w.standing n := by
  cases h with
  | memo m => exact w.standing_modifyMemo n m fun _ _ => rfl
  | _ => rfl

theorem standing_modifySources {m : NodeId} (hmn : m ≠ n)
    (f : List (Handle × Key) → List (Handle × Key)) :
    (w.modifySources m f).standing n = w.standing n :=
  w.standing_modify n m fun hm => absurd hm hmn

theorem standing_removeReaders (m : NodeId) (ps : List (Handle × Key)) :
    (ps.foldl (fun w p => w.modifyReaders p.1 (·.remove p.2 m)) w).standing n = w.standing n := by
  induction ps generalizing w with
  | nil => rfl
  | cons p ps ih => exact (ih _).trans (standing_modifyReaders w n p.1 _)

theorem standing_pushNode {node : Node} (h : node.standing = ([], false, false)) :
    (w.pushNode node).standing n = w.standing n := by
  simp only [standing, pushNode, Array.getElem?_push]
  split
  · next hn =>
    rw [hn, Array.getElem?_eq_none (Nat.le_refl _)]
    exact h
  · rfl

theorem mem_sources_trackedBy {m : NodeId} {h : Handle} {key : Key} {p : Handle × Key}
    (hp : p ∈ (w.trackedBy m h key).sources m) : p ∈ w.sources m ∨ p = (h, key) := by
  rw [trackedBy] at hp
  split at hp
  · exact .inl hp
  · rw [sources_modifySources, sources_modifyReaders] at hp
    split at hp
    · exact (List.mem_append.1 hp).imp_right List.mem_singleton.1
    · exact .inl hp

theorem sources_clearedOf_self : (w.clearedOf n).sources n = [] := by
  rw [clearedOf, sources_removeReaders, sources_modifySources]
  split
  · rfl
  · next hn =>
    have hsize : w.nodes.size ≤ n := Nat.le_of_not_lt fun hlt => hn ⟨rfl, hlt⟩
    rw [sources]
    simp [World.note, Array.getElem?_eq_none hsize]

theorem isDisposed_modifyEffect (m : NodeId) {f : Effect → Effect}
    (hf : ∀ e, (f e).disposed = e.disposed) :
    (w.modifyEffect m f).isDisposed n = w.isDisposed n := by
  rw [isDisposed, isDisposed, effect?_modifyEffect]
  split
  · cases w.effect? n with
    | none => rfl
    | some e => exact hf e
  · rfl

theorem isDisposed_running (m : NodeId) (rt : RuntimeId) :
    (w.running m rt).isDisposed n = w.isDisposed n := by
  have hm := isDisposed_modifyEffect ((w.clearedOf m).pushContext rt (some m)) n m
    (f := fun e => { e with running := true }) fun _ => rfl
  exact hm.trans ((SameNodes.clearedOf w m).isDisposed n)

theorem sources_running_self (rt : RuntimeId) : (w.running n rt).sources n = [] := by
  have hm := sources_modifyEffect ((w.clearedOf n).pushContext rt (some n)) n n
    (f := fun e => { e with running := true }) fun _ => rfl
  exact hm.trans (w.sources_clearedOf_self n)

theorem isDisposed_ran (m : NodeId) (rt : RuntimeId) :
    (w.ran m rt).isDisposed n = w.isDisposed n := by
  have h₁ := isDisposed_modifyEffect w n m (f := fun e => { e with running := false }) fun _ => rfl
  have h₂ := isDisposed_modifyEffect ((w.modifyEffect m fun e => { e with running := false }).note
    (.finished m)) n m (f := fun e => { e with runCount := e.runCount + 1 }) fun _ => rfl
  exact h₂.trans h₁

theorem sources_ran (m : NodeId) (rt : RuntimeId) : (w.ran m rt).sources n = w.sources n := by
  have h₁ := sources_modifyEffect w m n (f := fun e => { e with running := false }) fun _ => rfl
  have h₂ := sources_modifyEffect ((w.modifyEffect m fun e => { e with running := false }).note
    (.finished m)) m n (f := fun e => { e with runCount := e.runCount + 1 }) fun _ => rfl
  exact h₂.trans h₁

end Standing

/-- `w.Omits n w'`: nothing happens to the registrations of the node nor to its function, and it is
not disposed of. -/
structure Omits (w : World) (n : NodeId) (w' : World) : Prop where
  standing : w'.standing n = w.standing n
  past : ∃ new, w'.history = new ++ w.history ∧ ∀ e ∈ new, ¬ e.Marks n

namespace Omits

variable {w w' w'' : World} {n : NodeId}

theorem of_history (hs : w'.standing n = w.standing n) (hh : w'.history = w.history) :
    w.Omits n w' :=
  ⟨hs, [], hh, fun _ he => nomatch he⟩

theorem of_nodes (hn : w'.nodes = w.nodes) (hh : w'.history = w.history) : w.Omits n w' :=
  of_history (standing_of_nodes n hn) hh

theorem refl (w : World) (n : NodeId) : w.Omits n w :=
  of_nodes rfl rfl

theorem trans (h : w.Omits n w') (h' : w'.Omits n w'') : w.Omits n w'' where
  standing := h'.standing.trans h.standing
  past := by
    obtain ⟨new, hn, hm⟩ := h.past
    obtain ⟨new', hn', hm'⟩ := h'.past
    refine ⟨new' ++ new, by rw [hn', hn, List.append_assoc], fun e he => ?_⟩
    exact (List.mem_append.1 he).elim (hm' e) (hm e)

theorem note (w : World) {e : Event} (h : ¬ e.Marks n) : w.Omits n (w.note e) :=
  ⟨standing_of_nodes n rfl, [e], rfl, fun _ he => List.mem_singleton.1 he ▸ h⟩

theorem of_nodes_note (hn : w'.nodes = w.nodes) {e : Event} (hh : w'.history = e :: w.history)
    (h : ¬ e.Marks n) : w.Omits n w' :=
  (note w h).trans (of_nodes hn hh)

theorem modifyEffect (w : World) (m : NodeId) {f : Effect → Effect}
    (hf : ∀ e, (Node.effect (f e)).standing = (Node.effect e).standing) :
    w.Omits n (w.modifyEffect m f) :=
  of_history (w.standing_modifyEffect n m fun _ => hf) rfl

theorem modifyEffect_of_ne (w : World) {m : NodeId} (hmn : m ≠ n) (f : Effect → Effect) :
    w.Omits n (w.modifyEffect m f) :=
  of_history (w.standing_modifyEffect n m fun hm => absurd hm hmn) rfl

theorem modifyMemo (w : World) (m : NodeId) {f : Memo → Memo}
    (hf : ∀ x, (f x).sources = x.sources) : w.Omits n (w.modifyMemo m f) :=
  of_history (w.standing_modifyMemo n m fun _ => hf) rfl

theorem pushNode (w : World) {node : Node} (h : node.standing = ([], false, false)) :
    w.Omits n (w.pushNode node) :=
  of_history (w.standing_pushNode n h) rfl

theorem taken (w : World) (h : Handle) (key : Key) : w.Omits n (w.taken h key) :=
  (note w id).trans (of_history (standing_modifyReaders _ n h _) (history_modifyReaders _ h _))

theorem trackedBy (w : World) {m : NodeId} (hmn : m ≠ n) (h : Handle) (key : Key) :
    w.Omits n (w.trackedBy m h key) := by
  refine ⟨?_, [.tracked m h key], history_trackedBy w m h key, by simp [Event.Marks]⟩
  rw [World.trackedBy]
  split
  · rfl
  · exact (standing_modifySources _ n hmn _).trans (standing_modifyReaders _ n h _)

theorem clearedOf (w : World) {m : NodeId} (hmn : m ≠ n) : w.Omits n (w.clearedOf m) where
  standing := (standing_removeReaders _ n m _).trans (standing_modifySources _ n hmn _)
  past := ⟨[.cleared m], history_clearedOf w m, by simp [Event.Marks, hmn]⟩

theorem disposing (w : World) {m : NodeId} (hmn : m ≠ n) : w.Omits n (w.disposing m) :=
  (modifyEffect_of_ne w hmn _).trans (clearedOf _ hmn)

theorem running (w : World) {m : NodeId} (hmn : m ≠ n) (rt : RuntimeId) :
    w.Omits n (w.running m rt) := by
  rw [World.running]
  have hc := clearedOf (n := n) w hmn
  have hp : w.Omits n ((w.clearedOf m).pushContext rt (some m)) := hc.trans (of_nodes rfl rfl)
  exact (hp.trans (modifyEffect_of_ne _ hmn _)).trans (note _ hmn)

theorem stopped (w : World) {m : NodeId} (hmn : m ≠ n) (rt : RuntimeId) :
    w.Omits n (w.stopped m rt) :=
  (modifyEffect_of_ne w hmn _).trans (of_nodes rfl rfl)

theorem ran (w : World) {m : NodeId} (hmn : m ≠ n) (rt : RuntimeId) : w.Omits n (w.ran m rt) := by
  rw [World.ran]
  have hr := (modifyEffect_of_ne w hmn fun e => { e with running := false }).trans
    (note _ (e := .finished m) hmn)
  exact (hr.trans (modifyEffect_of_ne _ hmn _)).trans (of_nodes rfl rfl)

theorem computing (w : World) {m : NodeId} (hmn : m ≠ n) (rt : RuntimeId) :
    w.Omits n (w.computing m rt) := by
  rw [World.computing]
  have hc : w.Omits n ((w.clearedOf m).modifyMemo m fun m => { m with dirty := false }) :=
    (clearedOf w hmn).trans (modifyMemo _ m fun _ => rfl)
  refine trans ?_ (note _ (e := .started m) hmn)
  exact hc.trans (of_nodes rfl rfl)

theorem computed (w : World) {m : NodeId} (hmn : m ≠ n) (rt : RuntimeId) (r : Result) :
    w.Omits n (w.computed m rt r) := by
  rw [World.computed]
  have hp : w.Omits n (w.popContext rt) := of_nodes rfl rfl
  exact (hp.trans (note _ (e := .finished m) hmn)).trans (modifyMemo _ m fun _ => rfl)

theorem gotBy (w : World) (reader : Option NodeId) (m : NodeId) (r : Result) :
    w.Omits n (w.gotBy reader m r) := by
  cases reader with
  | none => exact note w id
  | some x => exact (note w id).trans (note _ id)

theorem queuedIn (w : World) (rt : RuntimeId) (m : NodeId) : w.Omits n (w.queuedIn rt m) := by
  refine ⟨standing_of_nodes n (nodes_queuedIn w rt m), ?_⟩
  rcases w.history_queuedIn rt m with h | h
  · exact ⟨[_], h, by simp [Event.Marks]⟩
  · exact ⟨[_, _], h, by simp [Event.Marks]⟩

theorem cleaning (w : World) (m : NodeId) (rt : RuntimeId) : w.Omits n (w.cleaning m rt) := by
  have h : w.Omits n (w.modifyEffect m fun e => { e with cleanups := [] }) :=
    modifyEffect w m fun _ => rfl
  exact h.trans (of_nodes rfl rfl)

theorem withStore (w : World) (state : ObjectId) : w.Omits n (w.withStore state) := by
  rw [World.withStore]
  refine trans ?_ (pushNode _ rfl)
  exact of_nodes rfl rfl

end Omits

end World

theorem Aside.omits {w w' : World} (h : Aside w w') (n : NodeId) : w.Omits n w' := by
  cases h with
  | cancel sub active =>
    exact .of_nodes_note (Aside.cancel sub active).nodes_eq (w.history_cancelled sub) id
  | bind name b valid => exact .of_nodes_note rfl rfl id
  | unbind name => exact .of_nodes_note rfl rfl id
  | log r => exact .of_nodes rfl rfl
  | clearLog => exact .of_nodes rfl rfl
  | external content => exact .of_nodes rfl rfl
  | task rt tasks h => exact .of_nodes rfl rfl
  | hold _ => exact .of_nodes rfl rfl
  | release _ _ => exact .of_nodes rfl rfl
  | _ => exact .note w id

def Frame.runs (n : NodeId) : Frame → Bool
  | .running m _ => m == n
  | _ => false

/-- What the state and the past say about an effect: it runs once at most, is taken from everything
when it is disposed of, and is late in what it is registered on after that. -/
structure Config.Lives (c : Config) (n : NodeId) : Prop where
  frames : c.stack.countP (Frame.runs n) = (c.world.isRunning n).toNat
  running : c.world.isRunning n → ∃ run old, UnderWay n c.world.history run old
  torn : c.world.isDisposed n → c.world.isRunning n → Torn n c.world.history
  cleared : c.world.isDisposed n → .cleared n ∈ sinceTurn n c.world.history
  late : c.world.isDisposed n → ∀ p ∈ c.world.sources n, Late n p c.world.history

namespace Config.Lives

variable {w w' : World} {f : Frame} {g g' : List Frame} {u u' : Bool} {n m : NodeId}
variable {rt : RuntimeId}

theorem omits (h : Lives ⟨w, g, u⟩ n) (ho : w.Omits n w')
    (hg : g'.countP (Frame.runs n) = g.countP (Frame.runs n)) : Lives ⟨w', g', u'⟩ n := by
  obtain ⟨hs, new, hnew, hmarks⟩ := ho
  rw [World.standing_eq, World.standing_eq, Prod.mk.injEq, Prod.mk.injEq] at hs
  obtain ⟨hsources, hdisposed, hrunning⟩ := hs
  have started : .started n ∉ new := fun hm => hmarks _ hm rfl
  have finished : .finished n ∉ new := fun hm => hmarks _ hm rfl
  have cleared : .cleared n ∉ new := fun hm => hmarks _ hm rfl
  have turn (rt : RuntimeId) : .turnBegan rt n ∉ new := fun hm => hmarks _ hm rfl
  constructor
  · rw [hg, hrunning]
    exact h.frames
  · intro hr
    obtain ⟨run, old, hu⟩ := h.running (hrunning ▸ hr)
    exact ⟨new ++ run, old, hnew ▸ hu.append new started finished⟩
  · intro hd hr
    exact hnew ▸ (h.torn (hdisposed ▸ hd) (hrunning ▸ hr)).append new started finished
  · intro hd
    exact hnew ▸ mem_sinceTurn_append new turn (h.cleared (hdisposed ▸ hd))
  · intro hd p hp
    exact hnew ▸ (h.late (hdisposed ▸ hd) p (hsources ▸ hp)).append new cleared

theorem of_memo (h : Lives ⟨w, g, u⟩ n) (hm : (w.memo? n).isSome) (he : w.Extends w')
    (hg : g'.countP (Frame.runs n) = g.countP (Frame.runs n)) : Lives ⟨w', g', u'⟩ n := by
  have none {x : World} (hx : (x.memo? n).isSome) : x.effect? n = none := by
    by_contra hne
    rw [World.memo?_eq_none_of_effect? (Option.isSome_iff_ne_none.2 hne)] at hx
    cases hx
  have idle {x : World} (hx : (x.memo? n).isSome) : x.isRunning n = false := by
    simp [World.isRunning, none hx]
  have live {x : World} (hx : (x.memo? n).isSome) : x.isDisposed n = false := by
    simp [World.isDisposed, none hx]
  have hm' := he.isSome_memo? hm
  have hf := h.frames
  constructor
  · rw [hg, hf, idle hm, idle hm']
  · intro hr
    cases (idle hm').symm.trans hr
  all_goals
    intro hd
    cases (live hm').symm.trans hd

theorem retaken (h : Lives ⟨w, g, u⟩ n) (hr : w'.isRunning n = w.isRunning n)
    (hs : w'.sources n = []) (hh : w'.history = .cleared n :: w.history)
    (hg : g'.countP (Frame.runs n) = g.countP (Frame.runs n)) : Lives ⟨w', g', u'⟩ n where
  frames := by
    rw [hg, hr]
    exact h.frames
  running hr' := by
    obtain ⟨run, old, hu⟩ := h.running (hr ▸ hr')
    exact ⟨.cleared n :: run, old, hh ▸ hu.append [.cleared n] (by simp) (by simp)⟩
  torn _ hr' := by
    obtain ⟨run, old, hu⟩ := h.running (hr ▸ hr')
    exact hh ▸ hu.torn
  cleared _ := by
    change _ ∈ sinceTurn n w'.history
    rw [hh, sinceTurn_cons (by simp)]
    exact List.mem_cons_self
  late _ p hp := by
    change p ∈ w'.sources n at hp
    rw [hs] at hp
    cases hp

theorem clearedOf (h : Lives ⟨w, g, u⟩ n) (m : NodeId)
    (hg : g'.countP (Frame.runs n) = g.countP (Frame.runs n)) :
    Lives ⟨w.clearedOf m, g', u'⟩ n := by
  by_cases hmn : m = n
  · subst hmn
    exact h.retaken ((World.Still.clearedOf w m).running m) (w.sources_clearedOf_self m)
      (w.history_clearedOf m) hg
  · exact h.omits (.clearedOf w hmn) hg

theorem disposing (h : Lives ⟨w, g, u⟩ n) (m : NodeId) : Lives ⟨w.disposing m, g, u⟩ n := by
  by_cases hmn : m = n
  · subst hmn
    exact h.retaken ((World.Still.disposing w m).running m) (World.sources_clearedOf_self _ m)
      (w.history_disposing m) rfl
  · exact h.omits (.disposing w hmn) rfl

/-- The function of an effect is started. If the effect was disposed of since its turn has come, the
run is torn from the start. -/
theorem started (h : Lives ⟨w, f :: g, u⟩ n) (hf : ∀ n, f.runs n = false)
    (hm : (w.effect? m).isSome) (idle : w.isRunning m = false) (rt : RuntimeId) :
    Lives ⟨w.running m rt, .running m rt :: g, u⟩ n := by
  have hframes : g.countP (Frame.runs n) = (w.isRunning n).toNat := by
    rw [← h.frames, List.countP_cons_of_neg (by simp [hf n])]
  by_cases hmn : m = n
  · subst hmn
    have hh := w.history_running m rt
    have hu := underWay_started m w.history
    constructor
    · have hr : (w.running m rt).isRunning m := (w.isRunning_running hm rt m).2 (.inr rfl)
      rw [List.countP_cons_of_pos (by simp [Frame.runs]), hframes, idle, hr]
      rfl
    · exact fun _ => hh ▸ ⟨[], _, hu⟩
    · intro hd _
      have hc := h.cleared ((w.isDisposed_running m m rt).symm.trans hd)
      exact hh ▸ ⟨[], _, hu, .inr hc⟩
    · intro _
      change _ ∈ sinceTurn m (w.running m rt).history
      rw [hh, sinceTurn_cons (by simp), sinceTurn_cons (by simp)]
      exact List.mem_cons_of_mem _ List.mem_cons_self
    · intro _ p hp
      change p ∈ (w.running m rt).sources m at hp
      rw [w.sources_running_self] at hp
      cases hp
  · have ho : Lives ⟨w, g, u⟩ n := h.omits (.refl w n) (by rw [hframes, ← h.frames])
    refine ho.omits (.running w hmn rt) ?_
    rw [List.countP_cons_of_neg (by simp [Frame.runs, hmn])]

theorem ended (h : Lives ⟨w, .running n rt :: g, u⟩ n) (new : List Event)
    (idle : w'.isRunning n = false) (hd : w'.isDisposed n = w.isDisposed n)
    (hs : w'.sources n = w.sources n) (hh : w'.history = new ++ w.history)
    (hnew : ∀ e ∈ new, e = .finished n) :
    Lives ⟨w', g, u'⟩ n where
  frames := by
    have hf := h.frames
    rw [List.countP_cons_of_pos (by simp [Frame.runs])] at hf
    have hle := Bool.toNat_le (w.isRunning n)
    rw [idle]
    change g.countP (Frame.runs n) = 0
    simp only at hf
    omega
  running hr := by cases idle.symm.trans hr
  torn _ hr := by cases idle.symm.trans hr
  cleared hd' := by
    change _ ∈ sinceTurn n w'.history
    rw [hh]
    refine mem_sinceTurn_append new (fun rt hm => ?_) (h.cleared (hd ▸ hd'))
    cases hnew _ hm
  late hd' p hp := by
    change Late n p w'.history
    rw [hh]
    refine (h.late (hd ▸ hd') p (hs ▸ hp)).append new fun hm => ?_
    cases hnew _ hm

theorem ran (h : Lives ⟨w, .running m rt :: g, u⟩ n) : Lives ⟨w.ran m rt, g, u'⟩ n := by
  by_cases hmn : m = n
  · subst hmn
    refine h.ended [.finished m] ?_ (w.isDisposed_ran m m rt) (w.sources_ran m m rt)
      (w.history_ran m rt) (by simp)
    exact eq_false_of_ne_true fun hr => ((w.isRunning_ran m rt m).1 hr).2 rfl
  · refine h.omits (.ran w hmn rt) ?_
    rw [List.countP_cons_of_neg (by simp [Frame.runs, hmn])]

theorem stopped (h : Lives ⟨w, .running m rt :: g, u⟩ n) : Lives ⟨w.stopped m rt, g, u'⟩ n := by
  by_cases hmn : m = n
  · subst hmn
    refine h.ended [] ?_ (w.isDisposed_modifyEffect m m fun _ => rfl)
      (w.sources_modifyEffect m m fun _ => rfl) rfl (by simp)
    exact eq_false_of_ne_true fun hr => ((w.isRunning_stopped m rt m).1 hr).2 rfl
  · refine h.omits (.stopped w hmn rt) ?_
    rw [List.countP_cons_of_neg (by simp [Frame.runs, hmn])]

/-- A read by the effect. If the effect was disposed of, its function is under way all the same. -/
theorem trackedBy (h : Lives ⟨w, g, u⟩ n) (m : NodeId) (x : Handle) (key : Key)
    (active : m = n → w.isDisposed n → w.isRunning n) : Lives ⟨w.trackedBy m x key, g, u⟩ n := by
  by_cases hmn : m = n
  · subst hmn
    have hr := (World.Still.trackedBy w m x key).running m
    have hd := (World.SameNodes.trackedBy w m x key).isDisposed m
    have hh := w.history_trackedBy m x key
    constructor
    · rw [hr]
      exact h.frames
    · intro hr'
      obtain ⟨run, old, hu⟩ := h.running (hr ▸ hr')
      exact hh ▸ ⟨_, old, hu.append [.tracked m x key] (by simp) (by simp)⟩
    · intro hd' hr'
      exact hh ▸ (h.torn (hd ▸ hd') (hr ▸ hr')).append [.tracked m x key] (by simp) (by simp)
    · intro hd'
      exact hh ▸ mem_sinceTurn_append [.tracked m x key] (by simp) (h.cleared (hd ▸ hd'))
    · intro hd' p hp
      have hd' := hd ▸ hd'
      rw [hh]
      rcases w.mem_sources_trackedBy hp with hp | rfl
      · exact (h.late hd' p hp).append [.tracked m x key] (by simp)
      · exact ⟨[], _, rfl, by simp, h.torn hd' (active rfl hd')⟩
  · exact h.omits (.trackedBy w hmn x key) rfl

theorem trackedIn (h : Lives ⟨w, g, u⟩ n) (rt : RuntimeId) (x : Handle) (key : Key)
    (active : w.currentReader rt = some n → w.isDisposed n → w.isRunning n) :
    Lives ⟨w.trackedIn rt x key, g, u⟩ n := by
  rw [World.trackedIn]
  split
  · exact h
  · next m hm => exact h.trackedBy m x key fun hmn => active (hmn ▸ hm)

theorem turn (h : Lives ⟨w, g, u⟩ n) (live : w.isDisposed n = false)
    (hg : g'.countP (Frame.runs n) = g.countP (Frame.runs n)) :
    Lives ⟨w.note (.turnBegan rt n), g', u⟩ n where
  frames := hg.trans h.frames
  running hr := by
    obtain ⟨run, old, hu⟩ := h.running hr
    exact ⟨_, old, hu.append [.turnBegan rt n] (by simp) (by simp)⟩
  torn hd := nomatch live.symm.trans hd
  cleared hd := nomatch live.symm.trans hd
  late hd := nomatch live.symm.trans hd

theorem active (h : Lives ⟨w, g, u⟩ n) (hs : Config.Sane ⟨w, g, u⟩) {rt : RuntimeId}
    (hrt : rt < w.runtimes.size) (hn : w.currentReader rt = some n) (hd : w.isDisposed n) :
    w.isRunning n := by
  have he := World.isSome_effect?_of_isDisposed hd
  rcases mem_actives.1 (hs.currentReader_mem_actives hrt hn) with ⟨rt', hf⟩ | ⟨rt', start, hf⟩
  · have hpos : 0 < g.countP (Frame.runs n) := List.countP_pos_iff.2 ⟨_, hf, by simp [Frame.runs]⟩
    have hframes : g.countP (Frame.runs n) = (w.isRunning n).toNat := h.frames
    rw [hframes] at hpos
    by_contra hr
    simp [Bool.eq_false_iff.2 hr] at hpos
  · have hm : (w.memo? n).isSome := (hs.frames _ hf).2
    rw [World.memo?_eq_none_of_effect? he] at hm
    cases hm

end Config.Lives

theorem Stage.Advance.not_marks {s s' : Stage} {e : Event} (h : s.Advance e s') {n : NodeId} :
    ¬ e.Marks n := by
  cases h <;> exact id

theorem Edit.omits {w w' : World} {write : Write} (h : Edit w write w') (n : NodeId) :
    w.Omits n w' :=
  .of_nodes_note h.nodes_eq h.history id

/-- A step takes an effect that is disposed of from everything, and registers it only where its
function is under way. -/
theorem Step.lives {c c' : Config} (h : Step c c') (hs : c.Sane) {n : NodeId} (hl : c.Lives n) :
    c'.Lives n := by
  have hx := h.extends
  cases h with
  | aside h => exact hl.omits (h.omits n) rfl
  | @track w g rt m x key _ valid owner _ reader =>
    refine hl.trackedBy m x key fun hm hd => ?_
    exact hl.active hs (owner ▸ hs.world.owner_lt valid) (hm ▸ reader) hd
  | see _ _ _ _ _ _ _ => exact hl.omits (.note _ id) rfl
  | newObject _ _ _ => exact hl.omits (.of_nodes_note rfl rfl id) rfl
  | newArray _ _ _ => exact hl.omits (.of_nodes_note rfl rfl id) rfl
  | resolveObject _ _ => exact hl.omits (.of_nodes rfl rfl) rfl
  | resolveArray _ _ => exact hl.omits (.of_nodes rfl rfl) rfl
  | write _ _ _ edit => exact hl.omits (edit.omits n) rfl
  | beginChange _ _ _ _ => exact hl.omits (.note _ id) rfl
  | @endChange w g rt id before after _ _ =>
    have ho := World.Omits.note (n := n) w (e := .changeEnded id) (·)
    exact hl.omits (ho.trans (.of_nodes_note rfl rfl (·))) rfl
  | abandonChange => exact hl.omits (.note _ id) rfl
  | trigger => exact hl.omits (.taken _ _ _) rfl
  | written => exact hl.omits (.refl _ n) rfl
  | told => exact hl.omits (.refl _ n) rfl
  | tellDisposed _ => exact hl.omits (.refl _ n) rfl
  | tellQueued _ _ => exact hl.omits (.refl _ n) rfl
  | tellEffect _ _ => exact hl.omits (.queuedIn _ _ _) rfl
  | tellDirty _ _ => exact hl.omits (.modifyMemo _ _ fun _ => rfl) rfl
  | tellClean _ _ => exact hl.omits (.modifyMemo _ _ fun _ => rfl) rfl
  | schedule _ _ _ _ _ _ => exact hl.omits ((World.Omits.note _ id).trans (.queuedIn _ _ _)) rfl
  | markDirty _ _ _ =>
    exact hl.omits ((World.Omits.note _ id).trans (.modifyMemo _ _ fun _ => rfl)) rfl
  | markClean _ _ _ _ =>
    exact hl.omits ((World.Omits.note _ id).trans (.modifyMemo _ _ fun _ => rfl)) rfl
  | newMemo _ _ _ => exact hl.omits (.pushNode _ rfl) rfl
  | @reuse w g m x r _ memo _ _ _ =>
    have ht := hl.trackedIn x.runtime (.memo m) .value (hl.active hs (hs.world.memos m x memo).1)
    exact ht.omits (.note _ id) rfl
  | @beginCompute w g m x _ memo _ _ =>
    have ht := hl.trackedIn x.runtime (.memo m) .value (hl.active hs (hs.world.memos m x memo).1)
    by_cases hmn : m = n
    · subst hmn
      exact hl.of_memo (Option.isSome_of_eq_some memo) hx rfl
    · exact ht.omits (.computing _ hmn x.runtime) rfl
  | @endCompute w g m rt start since r _ _ _ =>
    by_cases hmn : m = n
    · subst hmn
      exact hl.of_memo (hs.frames _ List.mem_cons_self).2 hx rfl
    · exact hl.omits (.computed w hmn rt r) rfl
  | abandonCompute => exact hl.omits (.of_nodes rfl rfl) rfl
  | endReading _ _ => exact hl.omits (.gotBy _ _ _ _) rfl
  | newEffect _ _ _ _ _ _ => exact hl.omits (.pushNode _ rfl) rfl
  | newStore _ _ _ => exact hl.omits (.withStore _ _) rfl
  | @addCleanup w g rt m e c _ _ _ _ _ _ =>
    have ho := World.Omits.note (n := n) w (e := .cleanupAdded m c) id
    exact hl.omits (ho.trans (.modifyEffect _ _ fun _ => rfl)) rfl
  | beginCleaning _ => exact hl.omits (.cleaning _ _ _) rfl
  | endCleaning => exact hl.omits (.of_nodes_note rfl rfl id) rfl
  | abandonCleaning _ => exact hl.omits (.of_nodes rfl rfl) rfl
  | skipPending _ => exact hl.omits (.refl _ n) rfl
  | clearRunning _ _ => exact hl.clearedOf _ rfl
  | @beginRun w g m rt f e effect idle _ turn _ =>
    refine hl.started (fun k => ?_) (Option.isSome_of_eq_some effect) ?_ rt
    · rcases turn with ⟨rfl, -⟩ | ⟨rfl, -⟩ <;> rfl
    · simp [World.isRunning, effect, idle]
  | endRun _ => exact hl.ran
  | beginWatch _ _ => exact hl.omits (.refl _ n) rfl
  | advance h => exact hl.omits (.note _ h.not_marks) rfl
  | keep _ _ _ => exact hl.omits (.modifyEffect _ _ fun _ => rfl) rfl
  | endReport => exact hl.omits (.refl _ n) rfl
  | watched _ _ _ => exact hl.omits (.refl _ n) rfl
  | prime _ _ => exact hl.omits (.modifyEffect _ _ fun _ => rfl) rfl
  | skipPass _ _ _ => exact hl.omits (.refl _ n) rfl
  | watchPass _ _ _ _ => exact hl.omits (.of_nodes_note rfl rfl (·)) rfl
  | watchPostpone _ _ _ => exact hl.omits (.of_nodes_note rfl rfl (·)) rfl
  | @endWatch w g m rt _ =>
    have hn : Config.Lives ⟨w, .running m rt :: g, false⟩ n := hl.omits (.refl w n) rfl
    exact hn.ran
  | abandonRun => exact hl.stopped
  | dispose _ _ _ _ => exact (hl.disposing _).omits (.cleaning _ _ _) rfl
  | retire _ _ => exact (hl.disposing _).omits (.note _ id) rfl
  | mask _ _ _ => exact hl.omits (.of_nodes rfl rfl) rfl
  | unmask => exact hl.omits (.of_nodes rfl rfl) rfl
  | @beginPass w g id _ _ _ _ =>
    have ho := World.Omits.note (n := n) w (e := .passAsked id) (·)
    exact hl.omits (ho.trans (.of_nodes_note rfl rfl (·))) rfl
  | endPass => exact hl.omits (.of_nodes_note rfl rfl (·)) rfl
  | @postpone w g id _ _ _ =>
    have ho := World.Omits.note (n := n) w (e := .passAsked id) (·)
    exact hl.omits (ho.trans (.of_nodes_note rfl rfl (·))) rfl
  | settle _ => exact hl.omits (.refl _ n) rfl
  | forgo _ => exact hl.omits (.of_nodes rfl rfl) rfl
  | takeUp _ _ _ => exact hl.omits (.of_nodes_note rfl rfl (·)) rfl
  | passOver _ => exact hl.omits (.refl _ n) rfl
  | beginCall _ _ _ | greet _ _ => exact hl.omits (.of_nodes_note rfl rfl (·)) rfl
  | subscribe _ _ _ _ => exact hl.omits (.of_nodes_note rfl rfl (·)) rfl
  | endCall => exact hl.omits (.of_nodes_note rfl rfl (·)) rfl
  | newRuntime _ => exact hl.omits (.of_nodes rfl rfl) rfl
  | beginFlush _ _ _ _ _ => exact hl.omits (.of_nodes_note rfl rfl id) rfl
  | beginRound _ => exact hl.omits (.of_nodes_note rfl rfl id) rfl
  | giveUp _ frames =>
    refine hl.omits (.of_nodes_note rfl rfl id) ?_
    rcases frames with rfl | ⟨rfl, -⟩ <;> rfl
  | skipTurn _ => exact hl.omits (.refl _ n) rfl
  | @beginTurn w g rt m batch live =>
    by_cases hmn : m = n
    · subst hmn
      exact hl.turn live rfl
    · exact hl.omits (.note _ hmn) rfl
  | endRound => exact hl.omits (.refl _ n) rfl
  | endFlush _ => exact hl.omits (.of_nodes_note rfl rfl id) rfl
  | throw _ => exact hl.omits (.note _ id) rfl
  | exhaust _ => exact hl.omits (.note _ id) rfl
  | @drop w g f droppable =>
    refine hl.omits (.refl w n) ?_
    cases f <;> first | rfl | exact droppable.elim
  | resume => exact hl.omits (.refl _ n) rfl

theorem Reaches.lives {settings : Settings} {hook : Hook} {c : Config}
    (h : Reaches (.start settings hook) c) (n : NodeId) : c.Lives n := by
  induction h with
  | refl =>
    have hr : (World.start settings hook).isRunning n = false := rfl
    have hd : (World.start settings hook).isDisposed n = false := rfl
    constructor
    · rfl
    · exact fun h => nomatch hr.symm.trans h
    all_goals exact fun h => nomatch hd.symm.trans h
  | tail steps step ih => exact step.lives (steps.sane (Config.start_sane settings hook)) ih

/-- After every program, an effect that was disposed of lists all that it is registered on, and each
part that it lists it has read too late: in a run of its function that it was disposed of in the
middle of, or in the cleanups before, and without being taken from everything since. An effect that
was disposed of at any other time is registered nowhere. -/
theorem disposed_registered_only_late (settings : Settings) (hook : Hook) (depth : Nat)
    (es : List Expr) (n : NodeId)
    (disposed : (World.after settings hook depth es).isDisposed n) :
    (∀ h key, (key, n) ∈ (World.after settings hook depth es).readers h →
      (h, key) ∈ (World.after settings hook depth es).sources n) ∧
    ∀ p ∈ (World.after settings hook depth es).sources n,
      Late n p (World.after settings hook depth es).history := by
  have hreach := reaches_after settings hook depth es
  exact ⟨fun h key hn => hreach.mirrored.listed h key n hn, (hreach.lives n).late disposed⟩

/-- An effect disposes of itself once there is something to read, and reads on. -/
def selfDisposing : List Expr :=
  withObject [
    .assign "e" (.effect (.cond (.apply .isNothing [readProperty "x"]) .nothing
      (.block [.apply .dispose [.var "e"], readProperty "y"]))),
    writeProperty "x" (.literal .null), .apply .flush []]

/-- What an effect reads after it has disposed of itself registers it again, and for good. -/
theorem disposed_registered_again :
    (World.after .standard .manual 3 selfDisposing).isDisposed 0 ∧
      (World.after .standard .manual 3 selfDisposing).sources 0 = [(.object 0, .property "y")] ∧
        (World.after .standard .manual 3 selfDisposing).readers (.object 0) =
          [(.property "y", 0)] := by
  refine ⟨?_, ?_, ?_⟩
  · cbv
  · cbv
  · cbv

/-- The effect has read the property in the run that it disposed of itself in. -/
theorem disposed_registered_only_late_selfDisposing :
    (World.after .standard .manual 3 selfDisposing).isDisposed 0 ∧
      (Handle.object 0, Key.property "y") ∈
        (World.after .standard .manual 3 selfDisposing).sources 0 ∧
      (∀ h key, (key, 0) ∈ (World.after .standard .manual 3 selfDisposing).readers h →
        (h, key) ∈ (World.after .standard .manual 3 selfDisposing).sources 0) ∧
      ∀ p ∈ (World.after .standard .manual 3 selfDisposing).sources 0,
        Late 0 p (World.after .standard .manual 3 selfDisposing).history := by
  have disposed : (World.after .standard .manual 3 selfDisposing).isDisposed 0 := by cbv
  have sources : (World.after .standard .manual 3 selfDisposing).sources 0 =
      [(.object 0, .property "y")] := by cbv
  exact ⟨disposed, by simp [sources],
    disposed_registered_only_late .standard .manual 3 selfDisposing 0 disposed⟩

end Reactivity
