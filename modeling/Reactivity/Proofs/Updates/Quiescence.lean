import Reactivity.Proofs.Run.Soundness
import Reactivity.Proofs.Updates.Performing
import Reactivity.Proofs.Updates.Settled
import Mathlib

namespace Reactivity

/-- When a flush has just ended undisturbed, its queue is empty and no computation is running. -/
def Config.Rested (c : Config) : Prop :=
  ∀ rt old, c.world.history = .flushEnded rt :: old → Undisturbed c.world.history →
    rt < c.world.runtimes.size ∧ c.world.queue rt = [] ∧ actives c.stack = [] ∧
      .flushing rt ∉ c.stack

namespace Config.Rested

variable {w w' : World} {g g' : List Frame} {u u' : Bool}

theorem of_head {e : Event} {old : List Event} (h : w'.history = e :: old)
    (he : ∀ rt, e ≠ .flushEnded rt) : Config.Rested ⟨w', g', u'⟩ :=
  fun rt _ hh => absurd (List.cons.inj (h.symm.trans hh)).1 (he rt)

theorem keep (h : Config.Rested ⟨w, g, u⟩) (hx : w.Extends w') (hh : w'.history = w.history)
    (hq : ∀ rt, w'.queue rt = w.queue rt) (ha : actives g = [] → actives g' = [])
    (hf : ∀ rt, .flushing rt ∈ g' → .flushing rt ∈ g) : Config.Rested ⟨w', g', u'⟩ := by
  intro rt old hold hu
  simp only [hh] at hold hu
  obtain ⟨hrt, hqueue, hact, hflush⟩ := h rt old hold hu
  exact ⟨(hx.runtimes rt hrt).1, (hq rt).trans hqueue, ha hact, fun hm => hflush (hf rt hm)⟩

end Config.Rested

theorem World.queue_pushRuntime (w : World) (settings : Settings) (hook : Hook) (rt : RuntimeId) :
    World.queue { w with runtimes := w.runtimes.push { settings := settings, hook := hook } } rt =
      w.queue rt := by
  simp only [queue, runtime, Array.getElem?_push]
  split
  · next h => simp [h]; rfl
  · rfl

theorem Aside.rested {w w' : World} {g : List Frame} {u : Bool} (h : Aside w w')
    (hr : Config.Rested ⟨w, g, u⟩) : Config.Rested ⟨w', g, u⟩ := by
  have he := h.extends
  cases h with
  | log r => exact hr.keep he rfl (fun _ => rfl) id fun _ => id
  | clearLog => exact hr.keep he rfl (fun _ => rfl) id fun _ => id
  | external content => exact hr.keep he rfl (fun _ => rfl) id fun _ => id
  | task rt tasks h => exact hr.keep he rfl (fun _ => rfl) id fun _ => id
  | hold _ => exact hr.keep he rfl (fun _ => rfl) id fun _ => id
  | release _ _ => exact hr.keep he rfl (fun _ => rfl) id fun _ => id
  | cancel sub _ => exact .of_head (w.history_cancelled sub) nofun
  | _ => exact .of_head rfl nofun

theorem Step.rested {c c' : Config} (h : Step c c') (hc : c.Sane) (ho : c.Orderly)
    (hr : c.Rested) : c'.Rested := by
  have he := h.extends
  have push (g : List Frame) (f : Frame) (hf : ∀ rt, .flushing rt ≠ f) (rt : RuntimeId)
      (hm : .flushing rt ∈ f :: g) : .flushing rt ∈ g := (List.mem_cons.1 hm).resolve_left (hf rt)
  have pop (g : List Frame) (f : Frame) (rt : RuntimeId) (hm : .flushing rt ∈ g) :
      .flushing rt ∈ f :: g := List.mem_cons_of_mem _ hm
  have swap (g : List Frame) (f f' : Frame) (hf : ∀ rt, .flushing rt ≠ f') (rt : RuntimeId)
      (hm : .flushing rt ∈ f' :: g) : .flushing rt ∈ f :: g := pop g f rt (push g f' hf rt hm)
  cases h with
  | aside h => exact h.rested hr
  | track _ _ _ _ _ => exact .of_head (World.history_trackedBy ..) nofun
  | write _ _ _ edit => exact .of_head edit.history nofun
  | resolveObject _ _ => exact hr.keep he rfl (fun _ => rfl) id fun _ => id
  | resolveArray _ _ => exact hr.keep he rfl (fun _ => rfl) id fun _ => id
  | trigger => exact .of_head (World.history_taken ..) nofun
  | written => exact hr.keep he rfl (fun _ => rfl) id (pop _ _)
  | told => exact hr.keep he rfl (fun _ => rfl) id (pop _ _)
  | tellDisposed _ => exact hr.keep he rfl (fun _ => rfl) id (swap _ _ _ nofun)
  | tellQueued _ _ => exact hr.keep he rfl (fun _ => rfl) id (swap _ _ _ nofun)
  | @tellEffect w g rt n ns _ _ =>
    rcases w.history_queuedIn rt n with hh | hh
    · exact .of_head hh nofun
    · exact .of_head hh nofun
  | tellDirty _ _ =>
    exact hr.keep he rfl (fun _ => rfl) id (swap _ _ _ nofun)
  | tellClean _ _ =>
    exact hr.keep he rfl (fun _ => rfl) id fun rt hm =>
      swap _ _ (.telling _ _) nofun rt (push _ (.writing _ _ _) nofun rt hm)
  | @schedule w g n e _ _ _ _ _ _ =>
    rcases (w.note (.scheduled n)).history_queuedIn e.runtime n with hh | hh
    · exact .of_head hh nofun
    · exact .of_head hh nofun
  | newMemo _ _ _ => exact hr.keep he rfl (fun _ => rfl) id fun _ => id
  | beginCompute _ _ _ _ => exact .of_head (World.history_computing ..) nofun
  | abandonCompute =>
    exact hr.keep he rfl (fun rt => World.queue_modifyRuntime _ _ rt fun _ => rfl) nofun (pop _ _)
  | endReading _ _ => exact .of_head (World.history_gotBy ..) nofun
  | newEffect _ _ _ _ _ _ => exact hr.keep he rfl (fun _ => rfl) id (push _ _ nofun)
  | newStore _ _ _ => exact hr.keep he rfl (fun _ => rfl) id (push _ _ nofun)
  | beginCleaning _ =>
    exact hr.keep he rfl (fun rt => World.queue_modifyRuntime _ _ rt fun _ => rfl) id (push _ _ nofun)
  | abandonCleaning _ =>
    exact hr.keep he rfl (fun rt => World.queue_modifyRuntime _ _ rt fun _ => rfl) id (pop _ _)
  | beginWatch _ _ => exact hr.keep he rfl (fun _ => rfl) id (push _ _ nofun)
  | advance h => exact .of_head rfl (by cases h <;> exact nofun)
  | keep _ _ _ => exact hr.keep he rfl (fun _ => rfl) id (swap _ _ _ nofun)
  | endReport => exact hr.keep he rfl (fun _ => rfl) id (pop _ _)
  | watched _ _ _ => exact hr.keep he rfl (fun _ => rfl) id (push _ _ nofun)
  | prime _ _ => exact hr.keep he rfl (fun _ => rfl) id (swap _ _ _ nofun)
  | skipPass _ _ _ => exact hr.keep he rfl (fun _ => rfl) id (swap _ _ _ nofun)
  | passOver _ => exact hr.keep he rfl (fun _ => rfl) id (swap _ _ _ nofun)
  | settle _ => exact hr.keep he rfl (fun _ => rfl) id (pop _ _)
  | forgo _ => exact hr.keep he rfl (fun _ => rfl) id (pop _ _)
  | skipPending _ => exact hr.keep he rfl (fun _ => rfl) id (pop _ _)
  | clearRunning _ _ => exact .of_head (World.history_clearedOf ..) nofun
  | beginRun _ _ _ _ _ => exact .of_head (World.history_running ..) nofun
  | abandonRun =>
    exact hr.keep he rfl (fun rt => World.queue_modifyRuntime _ _ rt fun _ => rfl) nofun (pop _ _)
  | dispose _ _ _ _ => exact .of_head (World.history_disposing ..) nofun
  | mask _ _ _ =>
    exact hr.keep he rfl (fun rt => World.queue_modifyRuntime _ _ rt fun _ => rfl) id (push _ _ nofun)
  | unmask =>
    exact hr.keep he rfl (fun rt => World.queue_modifyRuntime _ _ rt fun _ => rfl) id (pop _ _)
  | newRuntime _ => exact hr.keep he rfl (World.queue_pushRuntime _ _ _) id fun _ => id
  | skipTurn _ => exact hr.keep he rfl (fun _ => rfl) id (swap _ _ _ nofun)
  | endRound => exact hr.keep he rfl (fun _ => rfl) id (pop _ _)
  | @endFlush w g rt u done =>
    intro rt' old hh hu
    obtain rfl := Event.flushEnded.inj (List.cons.inj hh).1
    have hu' := hu.of_suffix he.history
    have hrt : rt < w.runtimes.size := hc.frames _ (List.mem_cons_self ..)
    obtain ⟨-, hnot, hdisturbed⟩ := ho.layered.1
    refine ⟨(he.runtimes rt hrt).1, ?_, by_contra fun hg => hdisturbed hg hu', hnot⟩
    have hu₀ : u = false := by
      cases u with
      | false => rfl
      | true => exact absurd hu' (ho.interrupted rfl).1
    have hqueue := World.queue_modifyRuntime w rt rt (f := fun r => { r with flushing := false })
      fun _ => rfl
    exact hqueue.trans (done hu₀)
  | @drop w g f droppable =>
    refine hr.keep he rfl (fun _ => rfl) (fun ha => ?_) (pop _ _)
    cases f <;> first | exact ha | exact droppable.elim
  | resume => exact hr.keep he rfl (fun _ => rfl) id fun _ => id
  | _ => exact .of_head rfl nofun

theorem Config.start_orderly (settings : Settings) (hook : Hook) :
    (Config.start settings hook).Orderly where
  layered := trivial
  interrupted := nofun
  started := nofun
  running n := by simp [Config.start, World.start, World.isRunning, World.effect?]
  flushing := nofun
  changes := rfl
  contents := nofun

theorem Config.start_settled (settings : Settings) (hook : Hook) :
    (Config.start settings hook).Settled where
  nodes _ := .inr (.of_started rfl)
  reading := nofun
  computing := nofun

/-- As long as a program stays regular, the stack is in order and everything is settled. -/
theorem Reaches.settled {settings : Settings} {hook : Hook} {c : Config}
    (h : Reaches (.start settings hook) c) (hr : c.world.Regular) :
    c.Orderly ∧ c.Settled ∧ c.Rested := by
  induction h with
  | refl =>
    exact ⟨Config.start_orderly settings hook, Config.start_settled settings hook, nofun⟩
  | @tail c c' steps step ih =>
    have hc : c.Sane := steps.sane (Config.start_sane settings hook)
    obtain ⟨ho, hs, hrest⟩ := ih (hr.of_extends step.extends)
    exact ⟨step.orderly hc ho hr, step.settled hc ho hs hr, step.rested hc ho hrest⟩

theorem Layered.exists_flushing {disturbed : Prop} {g : List Frame} (h : Layered disturbed g)
    {f : Frame} (hm : f ∈ g) (hf : (∃ n, f = .pending n) ∨ ∃ rt batch, f = .round rt batch) :
    ∃ rt, .flushing rt ∈ g := by
  induction g with
  | nil => cases hm
  | cons f' g ih =>
    rcases List.mem_cons.1 hm with rfl | hm
    · rcases hf with ⟨n, rfl⟩ | ⟨rt, batch, rfl⟩
      · obtain ⟨⟨rt, batch, g', rfl⟩, ⟨g'', rfl⟩, -⟩ := h
        exact ⟨rt, by simp⟩
      · obtain ⟨⟨g', rfl⟩, -⟩ := h
        exact ⟨rt, by simp⟩
    · obtain ⟨rt, hrt⟩ := ih h.2 hm
      exact ⟨rt, List.mem_cons_of_mem _ hrt⟩

/-- After an undisturbed flush of the only runtime, whoever is not disposed of is up to date. -/
theorem Config.Rested.fresh {w : World} {g : List Frame} (hr : Config.Rested ⟨w, g, false⟩)
    (hc : Config.Sane ⟨w, g, false⟩) (ho : Config.Orderly ⟨w, g, false⟩)
    (hs : Config.Settled ⟨w, g, false⟩) (code : AtCode g) (one : w.runtimes.size = 1)
    (hu : Undisturbed w.history) {rt : RuntimeId} {old : List Event}
    (hh : w.history = .flushEnded rt :: old) {n : NodeId} (hd : w.isDisposed n = false)
    (hclean : w.isDirty n = false) : Fresh w n := by
  obtain ⟨hrt, hqueue, -, hnot⟩ := hr rt old hh hu
  have only {rt' : RuntimeId} (h : rt' < w.runtimes.size) : rt' = rt := by
    have h₀ : rt < w.runtimes.size := hrt
    rw [one] at h h₀
    exact (Nat.lt_one_iff.1 h).trans (Nat.lt_one_iff.1 h₀).symm
  refine (hs.nodes n).resolve_left fun hn => ?_
  cases hn with
  | disposed h => exact absurd h (Bool.eq_false_iff.1 hd)
  | dirty h => exact absurd h (Bool.eq_false_iff.1 hclean)
  | @queued rt' h =>
    have hrt' : rt' < w.runtimes.size := by
      by_contra hge
      rw [World.queue, World.runtime, Array.getElem?_eq_none (Nat.le_of_not_lt hge)] at h
      cases h
    obtain rfl : rt' = rt := only hrt'
    rw [hqueue] at h
    cases h
  | @owed f mem owes =>
    have hnone (hf : (∃ m, f = .pending m) ∨ ∃ rt batch, f = .round rt batch) : False := by
      obtain ⟨rt', hm⟩ := ho.layered.exists_flushing mem hf
      have hrt' : rt' < w.runtimes.size := hc.frames _ hm
      obtain rfl : rt' = rt := only hrt'
      exact hnot hm
    have ht := ho.layered.not_triggers_of_atCode code f mem
    cases f with
    | writing => exact ht trivial
    | telling => exact ht trivial
    | pending m => exact hnone (.inl ⟨m, rfl⟩)
    | round rt' batch => exact hnone (.inr ⟨rt', batch, rfl⟩)
    | _ => exact owes
  | excused effect disturbed => exact disturbed hu

/-- Every tracked read that an effect has made since its function was last started gives the same
result if it is made again, unless the effect was disposed of. -/
def World.UpToDate (w : World) : Prop :=
  ∀ n e, w.effect? n = some e → e.disposed = false →
    ∀ read r, .saw n read r ∈ sinceStart n w.history →
      ∀ depth, ∃ r', ((read.perform (kernel depth)).run.run w).1 = .ok r' ∧ r.same r'

/-- No update is lost: on one runtime, after every flush of a regular and undisturbed program, all
effects are up to date. -/
theorem upToDate_after_flush (settings : Settings) (hook : Hook) (depth : Nat) (es : List Expr) :
    Throughout settings hook depth es fun w =>
      w.runtimes.size = 1 → w.Regular → Undisturbed w.history →
        (∃ rt old, w.history = .flushEnded rt :: old) → w.UpToDate := by
  refine throughout_of_reaches (fun {c} hreach hunwinding hcode => ?_) depth es
  obtain ⟨w, g, u⟩ := c
  obtain rfl : u = false := hunwinding
  intro one hregular hu ⟨rt, old, hh⟩ n e he hd read r hsaw d
  obtain ⟨ho, hs, hrest⟩ := hreach.settled hregular
  have hc : Config.Sane ⟨w, g, false⟩ := hreach.sane (Config.start_sane settings hook)
  have code : AtCode g := hcode.resolve_right fun ⟨_, rt, hhook, _⟩ => by
    by_cases hrt : rt < w.runtimes.size
    · exact hregular.hooks rt hrt hhook
    · simp only [World.runtime, Array.getElem?_eq_none (Nat.le_of_not_lt hrt)] at hhook
      cases hhook
  have hfresh : Fresh w n := by
    refine hrest.fresh hc ho hs code one hu hh ?_ ?_
    · rw [World.isDisposed, he]
      exact hd
    · rw [World.isDirty, World.memo?_eq_none_of_effect? (Option.isSome_of_eq_some he)]
      rfl
  obtain ⟨r', hr', hsame⟩ := (hfresh.answers read r hsaw).shown
  exact ⟨r', read.run_perform hr' d, hsame⟩

def copying : List Expr :=
  [.assign "o" (.apply .wrapObject [.literal (.object [])]),
   .effect (.path true (.var "o") [.literal (.string "a")]),
   .container .set (.var "o") [.literal (.string "a"), .literal .null],
   .apply .flush []]

theorem history_copying : (World.after .standard .manual 2 copying).history =
    [.flushEnded 0, .turnEnded 0 0, .finished 0, .saw 0 (.property 0 "a") (.value .null),
      .tracked 0 (.object 0) (.property "a"), .started 0, .cleared 0, .cleanedUp 0, .turnBegan 0 0,
      .roundBegan 0 [0], .flushBegan 0, .triggered (.object 0) .shape, .requested 0, .queued 0 0,
      .triggered (.object 0) (.property "a"), .wrote (.property 0 "a" none (some .null)),
      .finished 0, .saw 0 (.property 0 "a") .nothing, .tracked 0 (.object 0) (.property "a"),
      .started 0, .cleared 0, .cleanedUp 0, .bound "o", .wrapped []] := by
  cbv

theorem undisturbed_copying : Undisturbed (World.after .standard .manual 2 copying).history := by
  rw [history_copying]
  refine ⟨by simp, by simp, fun rt old hs n hn => ?_⟩
  simp only [List.suffix_cons_iff, List.cons.injEq, reduceCtorEq, false_and, false_or,
    List.suffix_nil, or_false, Event.flushBegan.injEq] at hs
  obtain ⟨-, rfl⟩ := hs
  simp only [Open, List.mem_cons, Event.started.injEq, reduceCtorEq, false_or, List.not_mem_nil,
    or_false] at hn
  obtain ⟨rfl, hf⟩ := hn
  exact hf (by simp [sinceStart])

theorem regular_copying : (World.after .standard .manual 2 copying).Regular where
  hooks rt hrt := by
    have size : (World.after .standard .manual 2 copying).runtimes.size = 1 := by cbv
    have hook : ((World.after .standard .manual 2 copying).runtime 0).hook = .manual := by cbv
    obtain rfl : rt = 0 := Nat.lt_one_iff.1 (size ▸ hrt)
    rw [hook]
    simp
  exhausted := by
    rw [history_copying]
    simp
  memos n hn := by
    have size : (World.after .standard .manual 2 copying).nodes.size = 1 := by cbv
    have none : (World.after .standard .manual 2 copying).memo? 0 = none := by cbv
    obtain rfl : n = 0 := Nat.lt_one_iff.1 (size ▸ World.lt_of_memo? hn)
    rw [none] at hn
    cases hn
  changes write _ old hs := by
    rw [history_copying] at hs
    simp only [List.suffix_cons_iff, List.cons.injEq, reduceCtorEq, false_and, false_or,
      List.suffix_nil, or_false] at hs
    obtain ⟨-, rfl⟩ := hs
    exact Nat.le_of_eq rfl

/-- The effect is run again by the flush, and then has read what was written. -/
theorem upToDate_after_flush_copying :
    Throughout .standard .manual 2 copying (fun w =>
      w.runtimes.size = 1 → w.Regular → Undisturbed w.history →
        (∃ rt old, w.history = .flushEnded rt :: old) → w.UpToDate) ∧
    ∃ w, w = World.after .standard .manual 2 copying ∧ w.runtimes.size = 1 ∧ w.Regular ∧
      Undisturbed w.history ∧ ∃ rt old, w.history = .flushEnded rt :: old :=
  ⟨upToDate_after_flush .standard .manual 2 copying, _, rfl, by cbv, regular_copying,
    undisturbed_copying, 0, _, history_copying⟩

end Reactivity
