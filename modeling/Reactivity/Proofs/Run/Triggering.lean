import Reactivity.Proofs.Run.Logic

namespace Reactivity

theorem Free.mono {w w' : World} {g : List Frame} (he : w.Extends w') (hg : ∀ f ∈ g, f.Valid w)
    (h : Free w g) : Free w' g := by
  induction g with
  | nil => trivial
  | cons f g ih =>
    have ih := ih fun f hf => hg f (List.mem_cons_of_mem _ hf)
    cases f with
    | running n rt =>
      have hn := hg _ (List.mem_cons_self ..)
      exact (he.isWatcher_eq hn.2).trans h
    | flushing rt => trivial
    | calling sub => trivial
    | computing n rt start =>
      intro m' hm'
      obtain ⟨m, hm⟩ := Option.isSome_iff_exists.1 (hg _ (List.mem_cons_self ..)).2
      obtain ⟨m'', hm'', -, hb⟩ := he.memos n m hm
      obtain rfl : m'' = m' := by simpa [hm''] using hm'
      rw [hb]
      exact h m hm
    | _ => exact ih h

/-- Somebody has looked at the state, and may have written down what a path leads to. -/
def World.Sighted (w w' : World) : Prop :=
  w' = w ∨ ∃ target path, w' = w.note (.sighted target path (w.along target path))

/-- What is asked of the operations through which bodies, flushes and triggers are nested: each is
a run of the machine. -/
structure Kernel.Sound (R : Config → Prop) (k : Kernel) : Prop where
  closed : Closed R
  observe : ∀ {c : Config}, R c → c.unwinding = false →
    AtCode c.stack ∨ AfterHook c.world c.stack →
      ∃ w', k.observe.run.run c.world = (.ok (), w') ∧ c.world.Sighted w'
  call : ∀ {w : World} {g : List Frame} {body : Closure} {args : List Result}, AtCode g → Free w g →
    body.Valid w → (∀ r ∈ args, r.Valid w) →
      Runs R g g g (k.call body args) (fun r w' => r.Valid w') w
  callPure : ∀ {w : World} {g : List Frame} {n : NodeId} {rt : RuntimeId} {start : List Event}
    {body : Closure}, body.Valid w → body.body.isPure → start <:+ w.history →
      Runs R (.computing n rt start :: g) (.computing n rt start :: g) (.computing n rt start :: g)
        (k.call body [])
        (fun r w' => r.Valid w' ∧ (w'.runtimes.size = 1 → ∀ since, w'.history = since ++ start →
          body.body.Follows ⟨body.runtime, []⟩ n since w'.lookup r)) w
  flushNow : ∀ {w : World} {g : List Frame} {rt : RuntimeId}, AtCode g ∨ AtTelling g →
    (AtCode g → Free w g) → TellsFor rt g → rt < w.runtimes.size →
      (w.runtime rt).hook = .flush → Runs R g g g (k.flushNow rt) (fun _ _ => True) w
  passOn : ∀ {w : World} {g : List Frame} {rt : RuntimeId} {h : Handle} {key : Key}
    {keys : List Key}, Free w g →
      Runs R (.writing rt h (key :: keys) :: g) g (.writing rt h keys :: g) (k.passOn rt h key)
        (fun _ _ => True) w

theorem Kernel.Sound.runs_observed {R : Config → Prop} {k : Kernel} (hk : k.Sound R) {w : World}
    {g e g' : List Frame} {α : Type} {act : Act α} {Q : α → World → Prop}
    (code : AtCode g ∨ AfterHook w g) (h : ∀ w', w.Extends w' → Runs R g e g' act Q w') :
    Runs R g e g' (k.observe >>= fun _ => act) Q w := by
  intro hr
  obtain ⟨w', hrun, hw⟩ := hk.observe hr rfl code
  rw [Act.run_bind, hrun]
  rcases hw with rfl | ⟨target, path, rfl⟩
  · exact h _ (.refl _) hr
  · have hstep : Step ⟨w, g, false⟩ ⟨_, g, false⟩ := .aside (.sighted target path)
    exact (h _ hstep.extends (hk.closed.step hr hstep)).mono hstep.extends fun _ _ _ hq => hq

theorem World.readers_note (w : World) (e : Event) (h : Handle) :
    (w.note e).readers h = w.readers h := by
  cases h <;> rfl

theorem run_track (rt : RuntimeId) (h : Handle) (key : Key) (w : World) :
    (track rt h key).run w = ((), w.trackedIn rt h key) := by
  cases hc : w.currentReader rt with
  | none =>
    simp [track, World.trackedIn, hc]
    rfl
  | some n =>
    by_cases hn : (key, n) ∈ w.readers h
    · simp [track, World.trackedIn, World.trackedBy, hc, World.readers_note, hn]
    · simp [track, World.trackedIn, World.trackedBy, hc, World.readers_note, hn]
      rfl

theorem kernel_observe (depth : Nat) : (kernel depth).observe = pure () := by
  cases depth <;> rfl

theorem run_noteRead (rt : RuntimeId) (read : Read) (r : Result) (w : World) :
    (noteRead rt read r).run w =
      ((), (w.currentReader rt).elim w fun n => w.note (.saw n read r)) := by
  cases hc : w.currentReader rt with
  | none =>
    simp [noteRead, hc]
    rfl
  | some n =>
    simp [noteRead, hc, note]
    rfl

theorem run_enqueue_of_mem (k : Kernel) {rt : RuntimeId} {n : NodeId} {w : World}
    (h : n ∈ (w.runtime rt).queue) : (enqueue k rt n).run.run w = (.ok (), w) := by
  simp only [enqueue, Act.run_get_bind, h, if_true]
  rfl

theorem World.hook_modifyRuntime (w : World) (i j : RuntimeId) {f : Runtime → Runtime}
    (hf : ∀ r, (f r).hook = r.hook) : ((w.modifyRuntime i f).runtime j).hook = (w.runtime j).hook := by
  rw [World.runtime_modifyRuntime]
  split
  · exact hf _
  · rfl

theorem run_requestFlush (k : Kernel) (rt : RuntimeId) (w : World) :
    (requestFlush k rt).run.run (w.modifyRuntime rt fun r => { r with flushRequested := true }) =
      if (w.runtime rt).hook = .flush then (k.flushNow rt).run.run (w.requested rt)
      else (.ok (), w.requested rt) := by
  have hook := (w.note (.requested rt)).hook_modifyRuntime rt rt
    (f := fun r => { r with flushRequested := true }) fun _ => rfl
  simp only [requestFlush, World.requested, Act.run_lift_bind, Act.run_get_bind, Change.run_note]
  have hook' : (((w.modifyRuntime rt fun r => { r with flushRequested := true }).note
      (.requested rt)).runtime rt).hook = (w.runtime rt).hook := hook
  generalize (w.modifyRuntime rt fun r => { r with flushRequested := true }).note (.requested rt) =
    w' at hook'
  rw [← hook']
  cases (w'.runtime rt).hook <;> rfl

theorem run_enqueue_of_not_mem (k : Kernel) {rt : RuntimeId} {n : NodeId} {w : World}
    (h : n ∉ (w.runtime rt).queue) :
    (enqueue k rt n).run.run w = (.ok (), w.queuedIn rt n) ∨
      (w.runtime rt).hook = .flush ∧
        (enqueue k rt n).run.run w = (k.flushNow rt).run.run (w.queuedIn rt n) := by
  have hook := (w.note (.queued rt n)).hook_modifyRuntime rt rt
    (f := fun r => { r with queue := r.queue ++ [n] }) fun _ => rfl
  simp only [enqueue, Act.run_get_bind, h, if_false, Act.run_lift_bind, Act.run_modify_bind,
    Change.run_note, World.queuedIn]
  split
  · exact .inl rfl
  · rw [Act.run_modify_bind, run_requestFlush, hook]
    by_cases hf : (w.runtime rt).hook = .flush
    · exact .inr ⟨hf, if_pos hf⟩
    · exact .inl (if_neg hf)

section Sound

variable {R : Config → Prop} {k : Kernel} (hk : k.Sound R) {w : World} {g g' : List Frame}
include hk

theorem Kernel.Sound.runs_enqueue {rt : RuntimeId} {n : NodeId} (code : AtCode g' ∨ AtTelling g')
    (free : AtCode g' → Free w g') (own : TellsFor rt g') (hg : ∀ f ∈ g', f.Valid w)
    (hrt : rt < w.runtimes.size) (stay : n ∈ (w.runtime rt).queue → R ⟨w, g', false⟩)
    (queue : n ∉ (w.runtime rt).queue → R ⟨w.queuedIn rt n, g', false⟩) :
    Runs R g g' g' (enqueue k rt n) (fun _ _ => True) w := by
  intro _
  have he := World.Extends.queuedIn w rt n
  by_cases hn : n ∈ (w.runtime rt).queue
  · rw [run_enqueue_of_mem k hn]
    exact ⟨stay hn, .refl w, trivial⟩
  · rcases run_enqueue_of_not_mem k hn with h | ⟨hook, h⟩
    · rw [h]
      exact ⟨queue hn, he, trivial⟩
    · have hrt' := he.runtimes rt hrt
      have hf := hk.flushNow code (fun hc => (free hc).mono he hg) own hrt'.1
        (hrt'.2.2.trans hook) (queue hn)
      rw [h]
      exact hf.mono he fun _ _ _ h => h

theorem Kernel.Sound.runs_passOn_last {rt : RuntimeId} {h : Handle} {key : Key} (free : Free w g) :
    Runs R (.writing rt h [key] :: g) g g (k.passOn rt h key) (fun _ _ => True) w := by
  intro hr
  have hp := hk.passOn (g := g) (h := h) free hr
  generalize (k.passOn rt h key).run.run w = o at hp ⊢
  rcases o with ⟨i | a, w'⟩
  · exact hp
  · exact ⟨hk.closed.step hp.1 .written, hp.2⟩

theorem Kernel.Sound.runs_tellEffect {rt : RuntimeId} {n : NodeId} {ns : List NodeId}
    (he : (w.effect? n).isSome) :
    Runs R (.telling rt (n :: ns) :: g) g (.telling rt ns :: g) (enqueue k rt n)
      (fun _ _ => True) w := by
  intro hr
  refine Runs.drop hk.closed (f := .telling rt ns) trivial (fun hr => ?_) hr
  have hs := (hk.closed.sane hr).frames
  obtain ⟨hrt, hns⟩ := hs _ (List.mem_cons_self ..)
  have hg : ∀ f ∈ Frame.telling rt ns :: g, f.Valid w := by
    intro f hf
    rcases List.mem_cons.1 hf with rfl | hf
    · exact ⟨hrt, fun m hm => hns m (List.mem_cons_of_mem _ hm)⟩
    · exact hs f (List.mem_cons_of_mem _ hf)
  have own : TellsFor rt (.telling rt ns :: g) := by
    rintro rt' nodes s ⟨⟩
    rfl
  exact hk.runs_enqueue (.inr trivial) (fun h => h.elim) own hg hrt
    (fun hq => hk.closed.step hr (.tellQueued he hq))
    (fun hq => hk.closed.step hr (.tellEffect he hq)) hr

theorem Kernel.Sound.runs_tell {rt : RuntimeId} {n : NodeId} {ns : List NodeId} (free : Free w g) :
    Runs R (.telling rt (n :: ns) :: g) g (.telling rt ns :: g)
      (do if !(← get).isDisposed n then notifyNode k rt n) (fun _ _ => True) w := by
  intro hr
  have hs := (hk.closed.sane hr).frames
  have hn : n < w.nodes.size := (hs _ (List.mem_cons_self ..)).2 n (List.mem_cons_self ..)
  by_cases hd : w.isDisposed n
  · refine Runs.step hk.closed (pure ()) (.tellDisposed hd) ?_ (.pure trivial) hr
    simp only [Act.run_get_bind, hd]
    rfl
  have hlive := eq_false_of_ne_true hd
  obtain ⟨node, hnode⟩ : ∃ node, w.nodes[n]? = some node := ⟨_, Array.getElem?_eq_getElem hn⟩
  cases node with
  | effect e =>
    have he : (w.effect? n).isSome := by simp [World.effect?, hnode]
    have hrun : (do if !(← get).isDisposed n then notifyNode k rt n : Act Unit).run.run w =
        (enqueue k rt n).run.run w := by
      simp only [Act.run_get_bind, hlive, Bool.not_false, if_true, notifyNode, hnode]
    rw [hrun]
    exact hk.runs_tellEffect he hr
  | memo m =>
    have hm : w.memo? n = some m := by simp [World.memo?, hnode]
    refine Runs.drop hk.closed (f := .telling rt ns) trivial ?_ hr
    by_cases hdirty : m.dirty
    · refine Runs.step hk.closed (pure ()) (.tellDirty hm hdirty) ?_ (.pure trivial)
      simp only [Act.run_get_bind, hlive, Bool.not_false, if_true, notifyNode, hnode,
        Act.run_modify_bind, hdirty, Bool.not_true, Bool.false_eq_true, if_false]
      rfl
    · have hclean := eq_false_of_ne_true hdirty
      refine Runs.step hk.closed (k.passOn rt (.memo n) .value) (.tellClean hm hclean) ?_ ?_
      · simp only [Act.run_get_bind, hlive, Bool.not_false, if_true, notifyNode, hnode,
          Act.run_modify_bind, hclean]
        rfl
      · refine hk.runs_passOn_last ?_
        have hg : Free w (.telling rt ns :: g) := free
        refine hg.mono (.madeDirty w n) fun f hf => ?_
        rcases List.mem_cons.1 hf with rfl | hf
        · obtain ⟨hrt, hns⟩ := hs _ (List.mem_cons_self ..)
          exact ⟨hrt, fun m hm => hns m (List.mem_cons_of_mem _ hm)⟩
        · exact hs f (List.mem_cons_of_mem _ hf)

theorem Kernel.Sound.runs_tellAll {rt : RuntimeId} {ns : List NodeId} (free : Free w g) :
    Runs R (.telling rt ns :: g) g g
      (ns.forM fun n => do if !(← get).isDisposed n then notifyNode k rt n)
      (fun _ _ => True) w := by
  induction ns generalizing w with
  | nil => exact Runs.step hk.closed (pure ()) .told rfl (.pure trivial)
  | cons n ns ih =>
    intro hr
    have hg := (hk.closed.sane hr).frames
    refine Runs.bind (hk.runs_tell free) (fun _ w' _ he _ => ?_) hr
    exact ih (free.mono he fun f hf => hg f (List.mem_cons_of_mem _ hf))

theorem Kernel.Sound.runs_trigger {rt : RuntimeId} {h : Handle} {key : Key} {keys : List Key}
    (free : Free w g) :
    Runs R (.writing rt h (key :: keys) :: g) g (.writing rt h keys :: g)
      (trigger k rt h key) (fun _ _ => True) w := by
  intro hr
  have hs := hk.closed.sane hr
  have he := World.Extends.taken w h key
  have free' := free.mono he fun f hf => hs.frames f (List.mem_cons_of_mem _ hf)
  have hrun : (trigger k rt h key).run.run w =
      (((w.readers h).on key).forM fun n => do
        if !(← get).isDisposed n then notifyNode k rt n : Act Unit).run.run (w.taken h key) := by
    cases h <;> rfl
  refine Runs.step hk.closed _ .trigger hrun ?_ hr
  exact .drop hk.closed (f := .writing rt h keys) trivial (hk.runs_tellAll free')

theorem Kernel.Sound.runs_trigger_last {rt : RuntimeId} {h : Handle} {key : Key} (free : Free w g) :
    Runs R (.writing rt h [key] :: g) g g (trigger k rt h key) (fun _ _ => True) w := by
  intro hr
  have hp := hk.runs_trigger (g := g) (h := h) free hr
  generalize (trigger k rt h key).run.run w = o at hp ⊢
  rcases o with ⟨i | a, w'⟩
  · exact hp
  · exact ⟨hk.closed.step hp.1 .written, hp.2⟩

theorem Kernel.Sound.runs_schedule {n : NodeId} (code : AtCode g) (free : Free w g)
    (other : w.isWatcher n = false) :
    Runs R g g g (schedule k n) (fun _ _ => True) w := by
  intro hr
  have hs := hk.closed.sane hr
  cases hn : w.effect? n with
  | none =>
    refine Runs.of_run (a := ()) ?_ trivial hr
    simp only [schedule, Act.run_get_bind, hn]
    rfl
  | some e =>
    by_cases hd : e.disposed
    · refine Runs.of_run (a := ()) ?_ trivial hr
      simp only [schedule, Act.run_get_bind, hn, hd, if_true]
      rfl
    · have hrun : (schedule k n).run.run w =
          (enqueue k e.runtime n).run.run (w.note (.scheduled n)) := by
        simp only [schedule, Act.run_get_bind, hn, hd, Bool.false_eq_true, if_false,
          Act.run_lift_bind, Change.run_note]
      have he := World.Extends.note w (.scheduled n)
      have hnoted := hk.closed.step hr (.aside (.scheduled n))
      rw [hrun]
      refine (hk.runs_enqueue (g := g) (.inl code) (fun _ => free.mono he hs.frames)
        (code.tellsFor _) (fun f hf => (hs.frames f hf).mono he) (hs.world.effects n e hn).1 (fun _ => hnoted)
        (fun hq => ?_) hnoted).mono he fun _ _ _ h => h
      exact hk.closed.step hr (.schedule code free hn (eq_false_of_ne_true hd) other hq)

theorem Kernel.Sound.runs_dirtyMemo {n : NodeId} (code : AtCode g) (free : Free w g) :
    Runs R g g g (dirtyMemo k n) (fun _ _ => True) w := by
  intro hr
  have hs := hk.closed.sane hr
  cases hn : w.memo? n with
  | none =>
    refine Runs.of_run (a := ()) ?_ trivial hr
    simp only [dirtyMemo, Act.run_get_bind, hn]
    rfl
  | some m =>
    have hnode : w.nodes[n]? = some (.memo m) := by
      simp only [World.memo?] at hn
      split at hn
      · next m' h => rw [h, Option.some.inj hn]
      · cases hn
    have hnode' : (w.note (.dirtied n)).nodes[n]? = some (.memo m) := hnode
    by_cases hdirty : m.dirty
    · refine Runs.step hk.closed (pure ()) (.markDirty code hn hdirty) ?_ (.pure trivial) hr
      simp only [dirtyMemo, Act.run_get_bind, hn, Act.run_lift_bind, Change.run_note, notifyNode,
        hnode', Act.run_modify_bind, hdirty, Bool.not_true, Bool.false_eq_true, if_false]
      rfl
    · have hclean := eq_false_of_ne_true hdirty
      refine Runs.step hk.closed (k.passOn m.runtime (.memo n) .value)
        (.markClean code free hn hclean) ?_ (hk.runs_passOn_last (free.mono ?_ hs.frames)) hr
      · simp only [dirtyMemo, Act.run_get_bind, hn, Act.run_lift_bind, Change.run_note, notifyNode,
          hnode', Act.run_modify_bind, hclean, Bool.not_false, if_true]
        rfl
      · exact .trans (.note w (.dirtied n)) (.madeDirty _ n)

end Sound

end Reactivity
