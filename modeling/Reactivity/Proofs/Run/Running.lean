import Reactivity.Proofs.Run.Staging
import Reactivity.Proofs.Run.Serializing

namespace Reactivity

section Parts

variable {R : Config → Prop} {k : Kernel} (hk : k.Sound R) {w : World} {g : List Frame}
variable {n : NodeId}
include hk

theorem Kernel.Sound.runs_cleanUp (free : Free w g) :
    Runs R (.pending n :: g) g (.pending n :: g) (cleanUp k n)
      (fun _ w' => ∃ old, w'.history = .cleanedUp n :: old) w := by
  refine .intro fun hr => ?_
  have hs := hk.closed.sane hr
  obtain ⟨e, he⟩ := Option.isSome_iff_exists.1 (hs.frames _ List.mem_cons_self)
  have hbegin : Step ⟨w, .pending n :: g, false⟩ ⟨w.cleaning n e.runtime,
      .amid (.cleaning n e.runtime e.cleanups) :: .pending n :: g, false⟩ := .beginCleaning he
  have hx := hbegin.extends
  have free' : Free (w.cleaning n e.runtime) g :=
    free.mono hx fun f hf => hs.frames f (List.mem_cons_of_mem _ hf)
  obtain ⟨-, -, hcleanups, -⟩ := hs.world.effects n e he
  refine .drop hk.closed (f := .pending n) trivial (.step hk.closed _ hbegin (run_cleanUp k he) ?_)
  exact hk.runs_callCleanups (g := .pending n :: g) free' fun c hc => (hcleanups c hc).mono hx

theorem Kernel.Sound.runs_job {rt rt' : RuntimeId} (ready : Ready w (.running n rt' :: g))
    (hrt : rt < w.runtimes.size) {e : Effect} (he : w.effect? n = some e) (hj : e.job.Valid w)
    (other : e.job.isWatcher = false) :
    Runs R (.running n rt' :: g) (.running n rt' :: g) (.running n rt' :: g) (runJob k n rt e.job)
      (fun _ _ => True) w := by
  cases hjob : e.job with
  | body c =>
    rw [hjob] at hj
    exact (hk.call ready.code ready.free hj fun r hr => absurd hr List.not_mem_nil).bind
      fun _ _ _ _ _ => .pure trivial
  | watch => exact hjob ▸ hk.runs_watch ready hrt he hjob hj
  | watchStore =>
    rw [hjob] at other
    cases other

theorem Kernel.Sound.runs_watched {rt : RuntimeId} {e : Effect} (he : w.effect? n = some e)
    {id : StoreId} {primed : Bool} (hjob : e.job = .watchStore id primed)
    (hstart : sinceStart n w.history = []) :
    Runs R (.running n rt :: g) (.running n rt :: g) (.watched n :: .running n rt :: g)
      (liftM (serialize (.object (w.store id).state)) : Act Json)
      (fun _ w' => ∃ e', w'.effect? n = some e' ∧ e'.job = .watchStore id primed) w := by
  refine .intro fun hr => ?_
  have hs := (hk.closed.sane hr).world
  have hid : id < w.stores.size := by
    have hvalid := (hs.effects n e he).2.1
    rwa [hjob] at hvalid
  have code : AtCode (.running n rt :: g) := trivial
  intro hr'
  obtain ⟨hr₁, he₁, hser, -⟩ :=
    does_serialize hk.closed code (v := .object _) (hs.stores id hid).1 hr'
  generalize hw₁ : ((serialize (.object (w.store id).state)).run w).2 = w₁ at hr₁ he₁ hser
  obtain ⟨hid₁, hruntime₁, hstate₁, -⟩ := he₁.stores id hid
  obtain ⟨e₁, heff₁, hbare⟩ := hser.reveals.nodes.effect? he
  have hjob₁ : e₁.job = .watchStore id primed := by
    rw [Effect.of_bare hbare]
    exact hjob
  have hs₁ := hk.closed.sane hr₁
  have hwatched : Step ⟨w₁, .running n rt :: g, false⟩ ⟨w₁, .watched n :: .running n rt :: g, false⟩ := by
    refine .watched heff₁ hjob₁ fun hrt => ?_
    obtain ⟨hvalid, howner, hlt, -⟩ := hs₁.world.stores id hid₁
    have hser' : w.Serialized (w.containerCount + 1) [.object (w₁.store id).state] w₁ := by
      rw [hstate₁]
      exact hser
    refine hser'.seenThrough hs₁.world hstart ?_ hvalid howner
    have hcontext := hs₁.context _ hlt
    rw [contextOf, if_pos hrt.symm] at hcontext
    rw [World.currentReader]
    exact congrArg (fun c => c.head?.join) hcontext
  have hrun : (liftM (serialize (.object (w.store id).state)) : Act Json).run.run w =
      (.ok ((serialize (.object (w.store id).state)).run w).1, w₁) := by
    rw [← hw₁]
    rfl
  rw [hrun]
  exact ⟨hk.closed.step hr₁ hwatched, he₁, e₁, heff₁, hjob₁⟩

section Watchers

-- Closed here: otherwise the run of an action is evaluated wherever a type is looked at.
attribute [local irreducible] Runs Does

theorem Kernel.Sound.runs_firstJob {rt rt' : RuntimeId} {e : Effect} (he : w.effect? n = some e)
    {id : StoreId} (hjob : e.job = .watchStore id false) (hstart : sinceStart n w.history = []) :
    Runs R (.running n rt :: g) (.running n rt :: g) (.notified n :: .running n rt :: g)
      (runJob k n rt' (.watchStore id false))
      (fun _ w' => ∀ e', w'.effect? n = some e' → e'.job.isPrimed) w := by
  refine .get_bind ((hk.runs_watched he hjob hstart).bind fun _ w₁ _ _ ⟨e₁, heff₁, hjob₁⟩ => ?_)
  refine .drop hk.closed (f := .notified n) trivial ?_
  refine .lift (.of_step hk.closed (.prime heff₁ hjob₁) fun _ e₂ heff => ?_)
  have heff : (w₁.modifyEffect n _).effect? n = some e₂ := heff
  rw [World.effect?_modifyEffect, if_pos rfl] at heff
  obtain ⟨_, -, rfl⟩ := Option.map_eq_some_iff.1 heff
  rfl

theorem Kernel.Sound.runs_nextJob {rt rt' : RuntimeId} {batch : List NodeId} {e : Effect}
    (he : w.effect? n = some e) {id : StoreId} (hjob : e.job = .watchStore id true)
    (hstart : sinceStart n w.history = []) :
    Runs R (.running n rt :: .round rt batch :: g) (.running n rt :: .round rt batch :: g)
      (.notified n :: .running n rt :: .round rt batch :: g) (runJob k n rt' (.watchStore id true))
      (fun _ w' => ∀ e', w'.effect? n = some e' → e'.job.isPrimed) w := by
  refine .get_bind ((hk.runs_watched he hjob hstart).bind fun _ w₁ hr₁ _ ⟨e₁, heff₁, hjob₁⟩ => ?_)
  have hid₁ : id < w₁.stores.size := by
    have hvalid := ((hk.closed.sane hr₁).world.effects n e₁ heff₁).2.1
    rwa [hjob₁] at hvalid
  have later {w₂ : World} (hx : w₁.Extends w₂) {e₂ : Effect} (heff : w₂.effect? n = some e₂) :
      e₂.job = .watchStore id true := by
    obtain ⟨e₂', heff', -, hf⟩ := hx.effects n e₁ heff₁
    obtain rfl : e₂' = e₂ := Option.some.inj (heff'.symm.trans heff)
    obtain ⟨primed₂, hj, hp₂⟩ := Job.Follows.of_watchStore (hjob₁ ▸ hf)
    rw [hj, hp₂ rfl]
  have primed {w₂ : World} (hx : w₁.Extends w₂) (e₂ : Effect) (heff : w₂.effect? n = some e₂) :
      e₂.job.isPrimed := by
    rw [later hx heff]
    rfl
  refine .drop hk.closed (f := .notified n) trivial (.get_bind ?_)
  split
  · refine (hk.runs_holding (fun _ _ => trivial) hid₁ fun hx => ?_).mono fun _ w₂ _ hx _ => primed hx
    obtain ⟨e₂, heff₂, -⟩ := hx.effects n e₁ heff₁
    exact hk.runs_notifyWatched heff₂ (later hx heff₂) (hx.stores id hid₁).1
  · next gone =>
    refine .step hk.closed (pure ()) (.skipPass heff₁ hjob₁ ?_) rfl (.pure (primed (.refl w₁)))
    simpa using gone

theorem Kernel.Sound.runs_watcherJob {rt : RuntimeId} (rt' : RuntimeId) {e : Effect}
    (he : w.effect? n = some e) {id : StoreId} {primed : Bool} (hjob : e.job = .watchStore id primed)
    (hstart : sinceStart n w.history = [])
    (turn : (∃ batch s, g = .round rt batch :: s) ∨ primed = false) :
    Runs R (.running n rt :: g) (.running n rt :: g) (.notified n :: .running n rt :: g)
      (runJob k n rt' (.watchStore id primed))
      (fun _ w' => ∀ e', w'.effect? n = some e' → e'.job.isPrimed) w := by
  rcases turn with ⟨batch, s, rfl⟩ | rfl
  · cases primed with
    | false => exact hk.runs_firstJob he hjob hstart
    | true => exact hk.runs_nextJob he hjob hstart
  · exact hk.runs_firstJob he hjob hstart

end Watchers

end Parts

def runOnce (k : Kernel) (n : NodeId) : Act Unit := do
  match (← get).effect? n with
  | none => return
  | some e =>
    if e.running then return
    modify (·.modifyEffect n fun e => { e with running := true })
    note (.started n)
    (runJob k n e.runtime e.job).ensuring
      (modify (·.modifyEffect n fun e => { e with running := false }))
    note (.finished n)
    modify (·.modifyEffect n fun e => { e with runCount := e.runCount + 1 })

/-- What is left of the run of an effect when its cleanups have been called. -/
def restart (k : Kernel) (rt : RuntimeId) (n : NodeId) : Act Unit := do
  clearSources n
  inContext rt (some n) (runOnce k n)

theorem runEffect_eq (k : Kernel) (rt : RuntimeId) (n : NodeId) :
    runEffect k rt n = (do
      if (← get).isDisposed n then return
      cleanUp k n
      restart k rt n) :=
  rfl

theorem run_restart (k : Kernel) (rt : RuntimeId) (n : NodeId) (w : World) :
    (restart k rt n).run.run w =
      (((runOnce k n).run.run ((w.clearedOf n).pushContext rt (some n))).1,
        ((runOnce k n).run.run ((w.clearedOf n).pushContext rt (some n))).2.popContext rt) :=
  rfl

theorem run_restart_busy (k : Kernel) (rt : RuntimeId) {n : NodeId} {e : Effect} {w : World}
    (he : (w.clearedOf n).effect? n = some e) (busy : e.running) :
    (restart k rt n).run.run w = (.ok (), w.clearedOf n) := by
  have he' : ((w.clearedOf n).pushContext rt (some n)).effect? n = some e := he
  have hrun : (runOnce k n).run.run ((w.clearedOf n).pushContext rt (some n)) =
      (.ok (), (w.clearedOf n).pushContext rt (some n)) := by
    rw [runOnce, Act.run_get_bind, he']
    simp only [busy, if_true]
    rfl
  rw [run_restart, hrun, World.popContext_pushContext]

theorem run_restart_idle (k : Kernel) (rt : RuntimeId) {n : NodeId} {e : Effect} {w : World}
    (he : (w.clearedOf n).effect? n = some e) (idle : e.running = false) :
    (restart k rt n).run.run w =
      match (runJob k n e.runtime e.job).run.run (w.running n rt) with
      | (.ok _, w') => (.ok (), w'.ran n rt)
      | (.error i, w') => (.error i, w'.stopped n rt) := by
  have he' : ((w.clearedOf n).pushContext rt (some n)).effect? n = some e := he
  have hrun : (runOnce k n).run.run ((w.clearedOf n).pushContext rt (some n)) = (do
      (runJob k n e.runtime e.job).ensuring
        (modify (·.modifyEffect n fun e => { e with running := false }))
      note (.finished n)
      modify (·.modifyEffect n fun e => { e with runCount := e.runCount + 1 })
      : Act Unit).run.run (w.running n rt) := by
    rw [runOnce, Act.run_get_bind, he']
    simp only [idle, Bool.false_eq_true, if_false]
    rfl
  rw [run_restart, hrun, Act.run_bind, Act.run_ensuring]
  rcases (runJob k n e.runtime e.job).run.run (w.running n rt) with ⟨i | a, w'⟩ <;> rfl

/-- `RunOf R n rt g w`: a run of an effect has come to its end in the state. -/
inductive RunOf (R : Config → Prop) (n : NodeId) (rt : RuntimeId) (g : List Frame) : World → Prop
  /-- The function of the effect has returned. -/
  | ran {w : World} {s : List Frame} (h : R ⟨w, s, false⟩)
    (frames : s = .running n rt :: g ∨ s = .notified n :: .running n rt :: g) :
    RunOf R n rt g (w.ran n rt)
  /-- The effect is running further out, and was only taken from everything. -/
  | busy {w : World} {e : Effect} (h : R ⟨w, .pending n :: g, false⟩)
    (effect : w.effect? n = some e) (busy : e.running) : RunOf R n rt g (w.clearedOf n)

section Effect

variable {R : Config → Prop} {k : Kernel} (hk : k.Sound R) {w : World} {g : List Frame}
variable {n : NodeId}
include hk

/-- The function of an effect is run, either in its turn or for the first time. -/
theorem Kernel.Sound.runs_restart_idle {rt : RuntimeId} {f : Frame} {e : Effect}
    (he : w.effect? n = some e) (idle : e.running = false) (hrt : rt < w.runtimes.size)
    (turn : (f = .pending n ∧ ∃ batch s, g = .round rt batch :: s) ∨
      f = .created n ∧ e.runtime = rt ∧ (e.job.isWatcher → e.job.isPrimed = false))
    (cleaned : ∃ old, w.history = .cleanedUp n :: old) :
    Runs R (f :: g) g g (restart k rt n) (fun _ w' => RunOf R n rt g w') w := by
  intro hr
  have hs := (hk.closed.sane hr).world
  have hbegin : Step ⟨w, f :: g, false⟩ ⟨w.running n rt, .running n rt :: g, false⟩ :=
    .beginRun he idle hrt (turn.imp_right fun h => ⟨h.1, h.2.1⟩) cleaned
  obtain ⟨e', he', hbare⟩ := (World.SameNodes.clearedOf w n).effect? he
  have hrunning : e'.running = false := by rw [Effect.of_bare hbare, idle]
  have hruntime : e'.runtime = e.runtime := by rw [Effect.of_bare hbare]
  have hjob : e'.job = e.job := by rw [Effect.of_bare hbare]
  obtain ⟨hrt', hvalid, -⟩ := hs.effects n e he
  have hr₁ := hk.closed.step hr hbegin
  have he₁ : (w.running n rt).effect? n = some { e' with running := true } := by
    have h : ((w.clearedOf n).pushContext rt (some n)).effect? n = some e' := he'
    change (((w.clearedOf n).pushContext rt (some n)).modifyEffect n _).effect? n = _
    rw [World.effect?_modifyEffect, if_pos rfl, h]
    rfl
  rw [run_restart_idle k rt he' hrunning, hruntime, hjob]
  have abandoned {w₂ : World} {i : Interrupt} (hr₂ : R ⟨w₂, .running n rt :: g, true⟩)
      (he₂ : (w.running n rt).Extends w₂) (hi : i.Raised (w.running n rt) w₂) :
      Ends R g g (fun _ w' => RunOf R n rt g w') w
        ((.error i : Except Interrupt Unit), w₂.stopped n rt) :=
    ⟨hk.closed.step hr₂ .abandonRun, hbegin.extends.trans (he₂.trans (.stopped ..)),
      hi.mono hbegin.extends (.stopped ..)⟩
  cases hwatcher : e.job.isWatcher with
  | false =>
    have hother : (w.running n rt).isWatcher n = false := by
      rw [World.isWatcher, he₁]
      exact (congrArg Job.isWatcher hjob).trans hwatcher
    have ready : Ready (w.running n rt) (.running n rt :: g) :=
      ⟨trivial, hother, (hk.closed.sane hr₁).frames⟩
    have hb := hk.runs_job (n := n) ready (hbegin.extends.runtimes _ hrt').1 he₁
      (hjob ▸ hvalid.mono hbegin.extends) ((congrArg Job.isWatcher hjob).trans hwatcher) hr₁
    simp only [hjob] at hb
    generalize (runJob k n e.runtime e.job).run.run (w.running n rt) = o at hb ⊢
    rcases o with ⟨i | a, w₂⟩
    · exact abandoned hb.1 hb.2.1 hb.2.2
    · obtain ⟨hr₂, he₂, -⟩ := hb
      have hother₂ := (he₂.isWatcher_eq (Option.isSome_of_eq_some he₁)).trans hother
      exact ⟨hk.closed.step hr₂ (.endRun hother₂), hbegin.extends.trans (he₂.trans (.ran ..)),
        .ran hr₂ (.inl rfl)⟩
  | true =>
    obtain ⟨id, primed, hstore⟩ : ∃ id primed, e.job = .watchStore id primed := by
      cases hj : e.job with
      | watchStore id primed => exact ⟨id, primed, rfl⟩
      | _ => rw [hj] at hwatcher; cases hwatcher
    have hstart : sinceStart n (w.running n rt).history = [] := by
      rw [World.history_running]
      exact sinceStart_started n _
    have first : (∃ batch s, g = .round rt batch :: s) ∨ primed = false := by
      refine turn.imp And.right fun h => ?_
      have hprimed := h.2.2 hwatcher
      rwa [hstore] at hprimed
    have hb := hk.runs_watcherJob e.runtime he₁ (hjob.trans hstore) hstart first hr₁
    rw [hstore]
    generalize (runJob k n e.runtime (.watchStore id primed)).run.run (w.running n rt) = o at hb ⊢
    rcases o with ⟨i | a, w₂⟩
    · exact abandoned hb.1 hb.2.1 hb.2.2
    · obtain ⟨hr₂, he₂, hprimed⟩ := hb
      exact ⟨hk.closed.step hr₂ (.endWatch hprimed), hbegin.extends.trans (he₂.trans (.ran ..)),
        .ran hr₂ (.inr rfl)⟩

theorem Kernel.Sound.runs_runEffect {rt : RuntimeId} {batch : List NodeId} (free : Free w g)
    (hrt : rt < w.runtimes.size) :
    Runs R (.pending n :: .round rt batch :: g) (.round rt batch :: g) (.round rt batch :: g)
      (runEffect k rt n)
      (fun _ w' => w.isDisposed n ∨ RunOf R n rt (.round rt batch :: g) w') w := by
  rw [runEffect_eq]
  refine .get_bind ?_
  split
  · next hd => exact .step hk.closed (pure ()) (.skipPending hd) rfl (.pure (.inl hd))
  · have free' : Free w (.round rt batch :: g) := free
    refine Runs.bind (hk.runs_cleanUp free') fun _ w₁ hr₁ he₁ cleaned => ?_
    have hframes₁ := (hk.closed.sane hr₁).frames
    obtain ⟨e, he⟩ := Option.isSome_iff_exists.1 (hframes₁ _ (List.mem_cons_self ..))
    cases hrunning : e.running with
    | true =>
      obtain ⟨e', he', hbare⟩ := (World.SameNodes.clearedOf w₁ n).effect? he
      have hrunning' : e'.running := by rw [Effect.of_bare hbare, hrunning]
      exact .step hk.closed (pure ()) (.clearRunning he hrunning)
        (run_restart_busy k rt he' hrunning') (.pure (.inr (.busy hr₁ he hrunning)))
    | false =>
      exact (hk.runs_restart_idle he hrunning (he₁.runtimes rt hrt).1 (.inl ⟨rfl, _, _, rfl⟩)
        cleaned).mono fun _ _ _ _ => .inr

theorem Kernel.Sound.runs_created {e : Effect} (he : w.effect? n = some e) (none : e.cleanups = [])
    (idle : e.running = false) (hrt : e.runtime < w.runtimes.size)
    (first : e.job.isWatcher → e.job.isPrimed = false) :
    Runs R (.created n :: g) g g
      (do
        note (.cleanedUp n)
        restart k e.runtime n) (fun _ _ => True) w := by
  have hclean := Aside.cleanedUp (w := w) n fun e' he' =>
    (Option.some.inj (he.symm.trans he')) ▸ none
  refine .step hk.closed (restart k e.runtime n) (.aside hclean) (Act.run_lift_bind ..) ?_
  exact (hk.runs_restart_idle (w := w.note (.cleanedUp n)) he idle hrt (.inr ⟨rfl, rfl, first⟩)
    ⟨_, rfl⟩).mono fun _ _ _ _ _ => trivial

end Effect

theorem World.modifyEffect_of_eq {w : World} {n : NodeId} {e : Effect} {f : Effect → Effect}
    (he : w.effect? n = some e) (hf : f e = e) : w.modifyEffect n f = w := by
  have hnode : w.nodes[n]? = some (.effect e) := by
    simp only [World.effect?] at he
    split at he
    · next e' h => rw [h, Option.some.inj he]
    · cases he
  have h : (w.modifyEffect n f).nodes = w.nodes := by
    refine Array.ext (by simp [World.modifyEffect]) fun i _ hi => ?_
    simp only [World.modifyEffect, Array.getElem_modify]
    split
    · next hni =>
      subst hni
      rw [Array.getElem?_eq_getElem hi] at hnode
      rw [Option.some.inj hnode]
      exact congrArg Node.effect hf
    · rfl
  exact congrArg (fun nodes => { w with nodes := nodes }) h

theorem run_createEffect (k : Kernel) (rt : RuntimeId) (job : Job) (w : World) :
    (createEffect k rt job).run.run w =
      (do
        note (.cleanedUp w.nodes.size)
        restart k rt w.nodes.size
        return w.nodes.size : Act NodeId).run.run
        (w.pushNode (.effect { runtime := rt, job := job })) := by
  have he : (w.pushNode (.effect { runtime := rt, job := job })).effect? w.nodes.size =
      some { runtime := rt, job := job } := by
    rw [World.effect?_pushNode, if_pos rfl]
  have hclean : (cleanUp k w.nodes.size).run.run (w.pushNode (.effect { runtime := rt, job := job })) =
      (.ok (), (w.pushNode (.effect { runtime := rt, job := job })).note
        (.cleanedUp w.nodes.size)) := by
    have hsame := World.modifyEffect_of_eq (f := fun e => { e with cleanups := [] }) he rfl
    rw [cleanUp, Act.run_get_bind, he]
    simp only [Act.run_modify_bind, hsame, List.isEmpty_nil, Bool.not_true, Bool.false_eq_true,
      if_false]
    rfl
  have hrun : (createEffect k rt job).run.run w =
      (runEffect k rt w.nodes.size >>= fun _ => pure w.nodes.size : Act NodeId).run.run
        (w.pushNode (.effect { runtime := rt, job := job })) := rfl
  have hlive : (w.pushNode (.effect { runtime := rt, job := job })).isDisposed w.nodes.size = false := by
    rw [World.isDisposed, he]
    rfl
  rw [hrun, Act.run_bind, runEffect_eq, Act.run_get_bind, hlive]
  simp only [Bool.false_eq_true, if_false]
  rw [Act.run_bind, hclean, Act.run_lift_bind, Act.run_bind]
  rfl

theorem run_dispose (k : Kernel) {n : NodeId} {e : Effect} {w : World} (he : w.effect? n = some e)
    (live : e.disposed = false) :
    (dispose k n).run.run w = (do
      callCleanups k n e.runtime e.cleanups
      note (.disposed n) : Act Unit).run.run ((w.disposing n).cleaning n e.runtime) := by
  have hdisposed : (w.modifyEffect n fun e => { e with disposed := true }).effect? n =
      some { e with disposed := true } := by
    rw [World.effect?_modifyEffect, if_pos rfl, he]
    rfl
  obtain ⟨e', he', hbare⟩ := (World.SameNodes.clearedOf _ n).effect? hdisposed
  have hclean := run_cleanUp k (w := w.disposing n) he'
  rw [Effect.of_bare hbare] at hclean
  have hrun : (dispose k n).run.run w = (do
      cleanUp k n
      note (.disposed n) : Act Unit).run.run (w.disposing n) := by
    rw [dispose, Act.run_get_bind, he]
    simp only [live, Bool.false_eq_true, if_false]
    rfl
  rw [hrun, Act.run_bind, Act.run_bind, hclean]

section Create

variable {R : Config → Prop} {k : Kernel} (hk : k.Sound R) {w : World} {g : List Frame}
include hk

theorem Kernel.Sound.runs_createEffect (ready : Ready w g) {rt : RuntimeId} {job : Job}
    (hrt : rt < w.runtimes.size) (hj : job.Valid w) (other : job.isWatcher = false)
    (new : job.isNew) :
    Runs R g g g (createEffect k rt job) (fun n w' => (Result.effect n).Valid w') w := by
  have hnew := Step.newEffect ready.code ready.free hrt hj other new
  have he : (w.pushNode (.effect { runtime := rt, job := job })).effect? w.nodes.size =
      some { runtime := rt, job := job } := by
    rw [World.effect?_pushNode, if_pos rfl]
  refine .step hk.closed _ hnew (run_createEffect k rt job w) ?_
  refine (hk.runs_created (g := g) he rfl rfl (hnew.extends.runtimes rt hrt).1 fun h => ?_).bind
    fun _ w₁ _ he₁ _ => .pure ?_
  · rw [other] at h
    cases h
  · have hsome := Option.isSome_of_eq_some he
    refine ⟨he₁.isSome_effect? hsome, (he₁.isWatcher_eq hsome).trans ?_⟩
    rw [World.isWatcher, he]
    exact other

theorem Kernel.Sound.runs_dispose (ready : Ready w g) {n : NodeId} (other : w.isWatcher n = false) :
    Runs R g g g (dispose k n) (fun _ _ => True) w := by
  cases he : w.effect? n with
  | none =>
    refine .of_run (a := ()) ?_ trivial
    rw [dispose, Act.run_get_bind, he]
    rfl
  | some e =>
    cases hd : e.disposed with
    | true =>
      refine .of_run (a := ()) ?_ trivial
      rw [dispose, Act.run_get_bind, he]
      simp only [hd, if_true]
      rfl
    | false =>
      refine .intro fun hr => ?_
      have hstep := Step.dispose ready.code he hd ready.free other
      have hx := hstep.extends
      obtain ⟨-, -, hcleanups, -⟩ := (hk.closed.sane hr).world.effects n e he
      refine .step hk.closed (do
        callCleanups k n e.runtime e.cleanups
        note (.disposed n)) hstep (run_dispose k he hd) ?_
      refine (hk.runs_callCleanups (ready.mono hx).free fun c hc => (hcleanups c hc).mono hx).bind
        fun _ _ _ _ _ => .step hk.closed (pure ()) (.aside (.disposed n)) rfl (.pure trivial)

end Create

theorem does_registerCleanup {R : Config → Prop} (hR : Closed R) {w : World} {g : List Frame}
    (code : AtCode g) (free : Free w g) {rt : RuntimeId} {c : Closure} (hc : c.Valid w) :
    Does R g false g (registerCleanup rt c) (fun _ _ => True) w := by
  refine .get_bind ?_
  cases hn : w.currentReader rt with
  | none => exact Does.pure (a := false) trivial
  | some n =>
    cases he : w.effect? n with
    | none =>
      simp only [he]
      exact .pure trivial
    | some e =>
      simp only [he]
      split
      · exact .pure trivial
      · next hd =>
        exact .step hR (pure true) (.addCleanup code free hn he (eq_false_of_ne_true hd) hc) rfl
          (.pure trivial)

end Reactivity
