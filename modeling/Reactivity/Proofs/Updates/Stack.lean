import Reactivity.Proofs.Updates.Writes

namespace Reactivity

def actives : List Frame → List NodeId
  | [] => []
  | .running n _ :: g => n :: actives g
  | .computing n _ _ :: g => n :: actives g
  | _ :: g => actives g

def Frame.Triggers : Frame → Prop
  | .writing .. | .telling .. => True
  | _ => False

def Frame.isChange : Frame → Bool
  | .changing .. => true
  | _ => false

/-- Whether the frame is something that has begun and is to end, and not only left to do. -/
def Frame.isLasting : Frame → Bool
  | .running .. | .computing .. | .changing .. | .flushing _ => true
  | _ => false

/-- `f.FitsOn disturbed g`: the frame can stand on the others. A flush that stands on a running
computation disturbs it. -/
def Frame.FitsOn (disturbed : Prop) : Frame → List Frame → Prop
  | .writing .., g => AtCode g ∨ ∃ rt nodes g', g = .telling rt nodes :: g'
  | .telling .., g => AtCode g ∨ AtNotified g ∨ ∃ rt h keys g', g = .writing rt h keys :: g'
  | .pending _, g => ∃ rt batch g', g = .round rt batch :: g'
  | .round rt _, g => ∃ g', g = .flushing rt :: g'
  | .running n _, g => (AtCode g ∨ ∃ rt batch g', g = .round rt batch :: g') ∧ n ∉ actives g
  | .watched n, g | .notified n, g => ∃ rt g', g = .running n rt :: g'
  | .amid (.cleaning n ..), g | .amid (.cleanup n ..), g =>
    AtCode g ∨ ∃ g', g = .pending n :: g'
  | .amid (.getting n _), g | .amid (.reporting n _), g | .amid (.calling n ..), g =>
    ∃ rt g', g = .running n rt :: g'
  | .passing .., g | .passed _, g => AtCode g ∨ AtNotified g
  | .calling _, g => AtCode g ∨ AtPassing g
  | .beyond, _ => False
  | .computing n _ _, g => n ∉ actives g ∧ ∃ reader g', g = .reading reader n :: g'
  | .reading reader n, g => AtCode g ∧ n ∉ actives g ∧ ∀ x, reader = some x → x ∈ actives g
  | .flushing rt, g => AtCode g ∧ .flushing rt ∉ g ∧ (actives g ≠ [] → disturbed)
  | _, g => AtCode g

def Layered (disturbed : Prop) : List Frame → Prop
  | [] => True
  | f :: g => f.FitsOn disturbed g ∧ Layered disturbed g

theorem Stage.Advance.fitsOn {s s' : Stage} {e : Event} (h : s.Advance e s') {disturbed : Prop}
    {g : List Frame} (fits : (Frame.amid s).FitsOn disturbed g) :
    (Frame.amid s').FitsOn disturbed g := by
  cases h <;> exact fits

section Layered

variable {disturbed disturbed' : Prop} {f : Frame} {g : List Frame}

theorem Frame.FitsOn.mono (hd : disturbed → disturbed') (h : f.FitsOn disturbed g) :
    f.FitsOn disturbed' g := by
  cases f with
  | flushing rt =>
    obtain ⟨hc, hf, ha⟩ := h
    exact ⟨hc, hf, fun hg => hd (ha hg)⟩
  | amid s => cases s <;> exact h
  | _ => exact h

theorem Layered.mono (hd : disturbed → disturbed') (h : Layered disturbed g) :
    Layered disturbed' g := by
  induction g with
  | nil => trivial
  | cons f g ih => exact ⟨h.1.mono hd, ih h.2⟩

theorem Layered.not_triggers (h : Layered disturbed g) (hg : ∀ f ∈ g.head?, ¬ f.Triggers) :
    ∀ f ∈ g, ¬ f.Triggers := by
  have code {g : List Frame} (hc : AtCode g) : ∀ f ∈ g.head?, ¬ f.Triggers := by
    intro f hf
    cases g with
    | nil => cases hf
    | cons f' g =>
      obtain rfl := Option.some.inj hf
      cases f' <;> first | exact hc.elim | exact id
  have notified {g : List Frame} (hw : AtNotified g) : ∀ f ∈ g.head?, ¬ f.Triggers := by
    obtain _ | ⟨f', g⟩ := g
    · exact hw.elim
    · cases f' with
      | notified => exact fun _ hf => Option.some.inj hf ▸ id
      | _ => exact hw.elim
  have passing {g : List Frame} (hp : AtPassing g) : ∀ f ∈ g.head?, ¬ f.Triggers := by
    obtain _ | ⟨f', g⟩ := g
    · exact hp.elim
    · cases f' with
      | passing => exact fun _ hf => Option.some.inj hf ▸ id
      | _ => exact hp.elim
  induction g with
  | nil => exact fun _ hf => nomatch hf
  | cons f g ih =>
    obtain ⟨hf, hl⟩ := h
    have hnot : ¬ f.Triggers := hg f rfl
    have hg' : ∀ f ∈ g.head?, ¬ f.Triggers := by
      cases f with
      | writing => exact absurd trivial hnot
      | telling => exact absurd trivial hnot
      | pending n =>
        obtain ⟨rt, batch, g', rfl⟩ := hf
        exact fun _ hx => Option.some.inj hx ▸ id
      | round rt batch =>
        obtain ⟨g', rfl⟩ := hf
        exact fun _ hx => Option.some.inj hx ▸ id
      | computing n rt start =>
        obtain ⟨-, reader, g', rfl⟩ := hf
        exact fun _ hx => Option.some.inj hx ▸ id
      | running =>
        obtain hc | ⟨rt, batch, g', rfl⟩ := hf.1
        · exact code hc
        · exact fun _ hx => Option.some.inj hx ▸ id
      | watched n =>
        obtain ⟨rt, g', rfl⟩ := hf
        exact fun _ hx => Option.some.inj hx ▸ id
      | notified n =>
        obtain ⟨rt, g', rfl⟩ := hf
        exact fun _ hx => Option.some.inj hx ▸ id
      | amid s =>
        have masked {n : NodeId} (hf : AtCode g ∨ ∃ g', g = .pending n :: g') :
            ∀ f ∈ g.head?, ¬ f.Triggers := by
          obtain hc | ⟨g', rfl⟩ := hf
          · exact code hc
          · exact fun _ hx => Option.some.inj hx ▸ id
        have watching {n : NodeId} (hf : ∃ rt g', g = .running n rt :: g') :
            ∀ f ∈ g.head?, ¬ f.Triggers := by
          obtain ⟨rt, g', rfl⟩ := hf
          exact fun _ hx => Option.some.inj hx ▸ id
        cases s with
        | cleaning => exact masked hf
        | cleanup => exact masked hf
        | getting => exact watching hf
        | reporting => exact watching hf
        | calling => exact watching hf
      | reading => exact code hf.1
      | flushing => exact code hf.1
      | created => exact code hf
      | changing => exact code hf
      | masked => exact code hf
      | greeting => exact code hf
      | passing => exact hf.elim code notified
      | passed => exact hf.elim code notified
      | calling => exact hf.elim code passing
      | beyond => exact hf.elim
    intro x hx
    rcases List.mem_cons.1 hx with rfl | hx
    · exact hnot
    · exact ih hl hg' x hx

theorem Layered.not_triggers_of_atCode (h : Layered disturbed g) (hc : AtCode g) :
    ∀ f ∈ g, ¬ f.Triggers := by
  refine h.not_triggers fun f hf => ?_
  cases g with
  | nil => cases hf
  | cons f' g =>
    obtain rfl := Option.some.inj hf
    cases f' <;> first | exact hc.elim | exact id

end Layered

theorem mem_actives {n : NodeId} {g : List Frame} : n ∈ actives g ↔
    (∃ rt, .running n rt ∈ g) ∨ ∃ rt start, .computing n rt start ∈ g := by
  induction g with
  | nil => simp [actives]
  | cons f g ih => cases f <;> simp [actives, ih, exists_or, or_assoc, or_left_comm]

theorem mem_actives_of_contextOf {rt : RuntimeId} {n : NodeId} {g : List Frame}
    (h : some n ∈ contextOf rt g) : n ∈ actives g := by
  rw [contextOf_eq_filterMap] at h
  obtain ⟨f, hf, he⟩ := List.mem_filterMap.1 h
  rw [mem_actives]
  rcases Frame.context?_eq_some.1 he with rfl | ⟨start, rfl⟩
  · exact .inl ⟨rt, hf⟩
  · exact .inr ⟨rt, start, hf⟩

theorem Config.Sane.currentReader_mem_actives {w : World} {g : List Frame} {u : Bool}
    (h : Config.Sane ⟨w, g, u⟩) {rt : RuntimeId} (hrt : rt < w.runtimes.size) {n : NodeId}
    (hn : w.currentReader rt = some n) : n ∈ actives g := by
  have hc : w.context rt = contextOf rt g := h.context rt hrt
  suffices hm : some n ∈ contextOf rt g from mem_actives_of_contextOf hm
  rw [World.currentReader] at hn
  rw [← hc, World.context]
  cases hr : (w.runtime rt).context with
  | nil => simp [hr] at hn
  | cons r rest =>
    simp only [hr, List.head?_cons, Option.join_some] at hn
    simp [hn]

/-- The stack is in order, and agrees with the state and the past. -/
structure Config.Orderly (c : Config) : Prop where
  layered : Layered (¬ Undisturbed c.world.history) c.stack
  interrupted : c.unwinding → ¬ Undisturbed c.world.history ∧ ∀ f ∈ c.stack, ¬ f.Triggers
  started : ∀ n ∈ actives c.stack, Open n c.world.history
  running : ∀ n, c.world.isRunning n ↔ ∃ rt, .running n rt ∈ c.stack
  flushing : ∀ rt, .flushing rt ∈ c.stack → (c.world.runtime rt).flushing
  changes : changesBegun c.world.history =
    changesEnded c.world.history + c.stack.countP Frame.isChange
  contents : ∀ id before, .changing id before ∈ c.stack → ∃ current,
    (c.world.array id).cells = current.map .value ∧ SameValues before current

theorem mem_filter_isLasting {f : Frame} {g : List Frame} (h : f.isLasting) :
    f ∈ g.filter Frame.isLasting ↔ f ∈ g := by
  rw [List.mem_filter, and_iff_left h]

/-- The event ends the function of a computation, or begins or ends the change of an array. -/
def Event.Delimits : Event → Prop
  | .finished _ | .changeBegan _ | .changeEnded _ => True
  | _ => False

theorem Stage.Advance.not_delimits {s s' : Stage} {e : Event} (h : s.Advance e s') :
    ¬ e.Delimits := by
  cases h <;> exact id

/-- `w.Still w'`: no computation, no change of an array and no flush begins or ends. -/
structure World.Still (w w' : World) : Prop where
  running : ∀ n, w'.isRunning n = w.isRunning n
  past : ∃ new, w'.history = new ++ w.history ∧ ∀ e ∈ new, ¬ e.Delimits
  flushing : ∀ rt, (w.runtime rt).flushing → (w'.runtime rt).flushing

namespace World.Still

variable {w w' w'' : World}

theorem refl (w : World) : w.Still w :=
  ⟨fun _ => rfl, ⟨[], rfl, fun _ he => nomatch he⟩, fun _ => id⟩

theorem trans (h : w.Still w') (h' : w'.Still w'') : w.Still w'' where
  running n := (h'.running n).trans (h.running n)
  past := by
    obtain ⟨new, hn, hd⟩ := h.past
    obtain ⟨new', hn', hd'⟩ := h'.past
    refine ⟨new' ++ new, by rw [hn', hn, List.append_assoc], fun e he => ?_⟩
    exact (List.mem_append.1 he).elim (hd' e) (hd e)
  flushing rt hf := h'.flushing rt (h.flushing rt hf)

theorem note (w : World) {e : Event} (h : ¬ e.Delimits) : w.Still (w.note e) :=
  ⟨fun _ => rfl, ⟨[e], rfl, fun _ he => List.mem_singleton.1 he ▸ h⟩, fun _ => id⟩

theorem of_eq (hn : w'.nodes = w.nodes) (hr : w'.runtimes = w.runtimes)
    (hh : w'.history = w.history) : w.Still w' where
  running n := by rw [isRunning, isRunning, effect?, effect?, hn]
  past := ⟨[], hh, fun _ he => nomatch he⟩
  flushing rt hf := by rwa [runtime, hr]

theorem modifyRuntime (w : World) (rt : RuntimeId) {f : Runtime → Runtime}
    (hf : ∀ r, r.flushing → (f r).flushing) : w.Still (w.modifyRuntime rt f) where
  running _ := rfl
  past := ⟨[], rfl, fun _ he => nomatch he⟩
  flushing j hj := by
    rw [runtime_modifyRuntime]
    split
    · exact hf _ hj
    · exact hj

theorem modifyEffect (w : World) (n : NodeId) {f : Effect → Effect}
    (hf : ∀ e, (f e).running = e.running) : w.Still (w.modifyEffect n f) where
  running m := by
    rw [isRunning, isRunning, effect?_modifyEffect]
    split
    · cases w.effect? m with
      | none => rfl
      | some e => exact hf e
    · rfl
  past := ⟨[], rfl, fun _ he => nomatch he⟩
  flushing _ := id

theorem modifyMemo (w : World) (n : NodeId) (f : Memo → Memo) : w.Still (w.modifyMemo n f) where
  running m := by rw [isRunning, isRunning, effect?_modifyMemo]
  past := ⟨[], rfl, fun _ he => nomatch he⟩
  flushing _ := id

theorem pushNode (w : World) {node : Node} (h : ∀ e, node = .effect e → e.running = false) :
    w.Still (w.pushNode node) where
  running n := by
    rw [isRunning, isRunning, effect?_pushNode]
    split
    · next hn =>
      have hnone : w.effect? n = none := by
        cases he : w.effect? n with
        | none => rfl
        | some e => exact absurd hn (Nat.ne_of_lt (lt_of_effect? (Option.isSome_of_eq_some he)))
      rw [hnone]
      cases node with
      | effect e => exact h e rfl
      | memo m => rfl
    · rfl
  past := ⟨[], rfl, fun _ he => nomatch he⟩
  flushing _ := id

theorem of_sameNodes (h : w.SameNodes w') (hr : w'.runtimes = w.runtimes)
    (hp : ∃ new, w'.history = new ++ w.history ∧ ∀ e ∈ new, ¬ e.Delimits) : w.Still w' where
  running n := by
    rw [isRunning, isRunning]
    cases he : w.effect? n with
    | none =>
      have hb := h.1 n
      rw [he, Option.map_none, Option.map_eq_none_iff] at hb
      rw [hb]
    | some e =>
      obtain ⟨e', he', hb⟩ := h.effect? he
      rw [he', Effect.of_bare hb]
      rfl
  past := hp
  flushing rt hf := by rwa [runtime, hr]

theorem trackedBy (w : World) (n : NodeId) (h : Handle) (key : Key) :
    w.Still (w.trackedBy n h key) :=
  of_sameNodes (.trackedBy w n h key) (runtimes_trackedBy w n h key)
    ⟨[.tracked n h key], history_trackedBy w n h key, by simp [Event.Delimits]⟩

theorem trackedIn (w : World) (rt : RuntimeId) (h : Handle) (key : Key) :
    w.Still (w.trackedIn rt h key) := by
  rw [World.trackedIn]
  split
  · exact refl w
  · exact trackedBy w _ h key

theorem clearedOf (w : World) (n : NodeId) : w.Still (w.clearedOf n) :=
  of_sameNodes (.clearedOf w n) (runtimes_clearedOf w n)
    ⟨[.cleared n], history_clearedOf w n, by simp [Event.Delimits]⟩

theorem taken (w : World) (h : Handle) (key : Key) : w.Still (w.taken h key) :=
  of_sameNodes (.taken w h key) (runtimes_taken w h key)
    ⟨[.triggered h key], history_taken w h key, by simp [Event.Delimits]⟩

theorem requested (w : World) (rt : RuntimeId) : w.Still (w.requested rt) := by
  have h : w.Still
      ((w.modifyRuntime rt fun r => { r with flushRequested := true }).note (.requested rt)) := by
    refine trans ?_ (note _ id)
    exact modifyRuntime w rt fun _ => id
  rw [World.requested]
  split
  · exact h
  · exact h.trans (of_eq rfl rfl rfl)
  · exact h.trans (of_eq rfl rfl rfl)
  · exact h.trans (of_eq rfl rfl rfl)

theorem queuedIn (w : World) (rt : RuntimeId) (n : NodeId) : w.Still (w.queuedIn rt n) := by
  have h : w.Still
      ((w.note (.queued rt n)).modifyRuntime rt fun r => { r with queue := r.queue ++ [n] }) :=
    (note w id).trans (modifyRuntime _ rt fun _ => id)
  rw [World.queuedIn]
  split
  · exact h
  · exact h.trans (requested _ rt)

theorem computing (w : World) (n : NodeId) (rt : RuntimeId) : w.Still (w.computing n rt) := by
  rw [World.computing]
  refine trans ?_ (note _ id)
  refine trans ?_ (modifyRuntime _ rt fun _ => id)
  exact (clearedOf w n).trans (modifyMemo _ n _)

theorem gotBy (w : World) (reader : Option NodeId) (n : NodeId) (r : Result) :
    w.Still (w.gotBy reader n r) := by
  cases reader with
  | none => exact note w id
  | some x => exact (note w id).trans (note _ id)

theorem disposing (w : World) (n : NodeId) : w.Still (w.disposing n) := by
  rw [World.disposing]
  refine trans ?_ (clearedOf _ n)
  exact modifyEffect w n fun _ => rfl

theorem cleaning (w : World) (n : NodeId) (rt : RuntimeId) : w.Still (w.cleaning n rt) := by
  rw [World.cleaning]
  refine trans ?_ (modifyRuntime _ rt fun _ => (·))
  exact modifyEffect w n fun _ => rfl

theorem withStore (w : World) (state : ObjectId) : w.Still (w.withStore state) := by
  rw [World.withStore]
  refine trans ?_ (pushNode _ ?_)
  · exact of_eq rfl rfl rfl
  · rintro e ⟨⟩
    rfl

theorem passBegun (w : World) (id : StoreId) : w.Still (w.passBegun id) := by
  rw [World.passBegun]
  refine trans ?_ (modifyRuntime _ _ fun _ => (·))
  exact (note w (e := .passBegan id) (·)).trans (of_eq rfl rfl rfl)

theorem passEnded (w : World) (id : StoreId) (rt : RuntimeId) : w.Still (w.passEnded id rt) := by
  rw [World.passEnded]
  refine trans ?_ (note _ fun h => h)
  refine trans ?_ (of_eq (w := w.popContext rt) rfl rfl rfl)
  exact modifyRuntime _ _ fun _ => (·)

theorem passPostponed (w : World) (id : StoreId) : w.Still (w.passPostponed id) := by
  rw [World.passPostponed]
  exact (note w (e := .passPostponed id) (·)).trans (of_eq rfl rfl rfl)

theorem withSubscription (w : World) (id : StoreId) (callback : Closure) :
    w.Still (w.withSubscription id callback) :=
  (note w (e := .subscribed _) (·)).trans (of_eq rfl rfl rfl)

theorem callBegun (w : World) (sub : SubscriptionId) (j : Json) : w.Still (w.callBegun sub j) := by
  rw [World.callBegun]
  exact (note w (e := .delivered sub j) (·)).trans (of_eq rfl rfl rfl)

theorem callEnded (w : World) (sub : SubscriptionId) : w.Still (w.callEnded sub) := by
  rw [World.callEnded]
  refine trans ?_ (note _ fun h => h)
  exact of_eq rfl rfl rfl

end World.Still

theorem Aside.still {w w' : World} (h : Aside w w') : w.Still w' := by
  cases h with
  | bind name b valid => exact (World.Still.note w id).trans (.of_eq rfl rfl rfl)
  | unbind name => exact (World.Still.note w id).trans (.of_eq rfl rfl rfl)
  | hold _ => exact .of_eq rfl rfl rfl
  | release _ _ => exact .of_eq rfl rfl rfl
  | cancel sub _ =>
    obtain ⟨_, _, h⟩ := w.cancelled_eq sub
    exact h ▸ (World.Still.note w id).trans (.of_eq rfl rfl rfl)
  | log r => exact .of_eq rfl rfl rfl
  | clearLog => exact .of_eq rfl rfl rfl
  | external content => exact .of_eq rfl rfl rfl
  | task rt tasks h => exact .of_eq rfl rfl rfl
  | _ => exact .note w id

namespace Config.Orderly

variable {w w' : World} {g g' : List Frame} {u u' : Bool}

theorem undisturbed_of_suffix (he : w.Extends w') (h : ¬ Undisturbed w.history) :
    ¬ Undisturbed w'.history :=
  fun hw' => h (hw'.of_suffix he.history)

theorem contents_of_eq (h : Config.Orderly ⟨w, g, u⟩)
    (heq : ∀ id before, .changing id before ∈ g → (w'.array id).cells = (w.array id).cells) :
    ∀ id before, .changing id before ∈ g → ∃ current,
      (w'.array id).cells = current.map .value ∧ SameValues before current := by
  intro id before hm
  obtain ⟨current, hcells, hsame⟩ := h.contents id before hm
  exact ⟨current, (heq id before hm).trans hcells, hsame⟩

theorem of_still (h : Config.Orderly ⟨w, g, u⟩) (hs : w.Still w')
    (lasting : g'.filter Frame.isLasting = g.filter Frame.isLasting)
    (layered : Layered (¬ Undisturbed w'.history) g')
    (interrupted : u' → ¬ Undisturbed w'.history ∧ ∀ f ∈ g', ¬ f.Triggers)
    (contents : ∀ id before, .changing id before ∈ g → ∃ current,
      (w'.array id).cells = current.map .value ∧ SameValues before current) :
    Config.Orderly ⟨w', g', u'⟩ := by
  have mem {f : Frame} (hf : f.isLasting) : f ∈ g' ↔ f ∈ g := by
    rw [← mem_filter_isLasting hf, lasting, mem_filter_isLasting hf]
  have active {n : NodeId} : n ∈ actives g' ↔ n ∈ actives g := by
    rw [mem_actives, mem_actives]
    exact or_congr (exists_congr fun rt => mem rfl)
      (exists_congr fun rt => exists_congr fun start => mem rfl)
  obtain ⟨new, hn, hd⟩ := hs.past
  refine ⟨layered, interrupted, fun n hm => ?_, fun n => ?_, fun rt hf => ?_, ?_, ?_⟩
  · have ho := (h.started n (active.1 hm)).append fun hf => hd _ hf trivial
    rwa [← hn] at ho
  · rw [hs.running n, h.running n]
    exact (exists_congr fun rt => mem rfl).symm
  · exact hs.flushing rt (h.flushing rt ((mem rfl).1 hf))
  · have hb : changesBegun new = 0 := by
      refine List.countP_eq_zero.2 fun e he => ?_
      cases e <;> first | exact Bool.false_ne_true | exact absurd trivial (hd _ he)
    have hend : changesEnded new = 0 := by
      refine List.countP_eq_zero.2 fun e he => ?_
      cases e <;> first | exact Bool.false_ne_true | exact absurd trivial (hd _ he)
    have hcount : g'.countP Frame.isChange = g.countP Frame.isChange := by
      have filtered (g : List Frame) :
          (g.filter Frame.isLasting).countP Frame.isChange = g.countP Frame.isChange := by
        rw [List.countP_filter]
        congr 1
        funext f
        cases f <;> rfl
      rw [← filtered, lasting, filtered]
    have hc := h.changes
    simp only [changesBegun, changesEnded, hn, List.countP_append] at hb hend hc ⊢
    omega
  · exact fun id before hm => contents id before ((mem rfl).1 hm)

end Config.Orderly

end Reactivity
