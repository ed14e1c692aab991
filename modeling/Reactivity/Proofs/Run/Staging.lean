import Reactivity.Proofs.Run.Notifying

namespace Reactivity

theorem World.popContext_pushContext (w : World) (rt : RuntimeId) (reader : Option NodeId) :
    (w.pushContext rt reader).popContext rt = w := by
  have h : (w.runtimes.modify rt fun r => { r with context := reader :: r.context }).modify rt
      (fun r => { r with context := r.context.tail }) = w.runtimes := by
    refine Array.ext (by simp) fun i _ _ => ?_
    simp only [Array.getElem_modify]
    split <;> rfl
  simp only [World.pushContext, World.popContext, World.modifyRuntime, h]

/-- What is left to be done of the cleanups of an effect while some are left. -/
def callCleanups (k : Kernel) (n : NodeId) (rt : RuntimeId) (left : List Closure) : Act Unit := do
  Act.ensuring
    (left.forM fun cleanup => do
      note (.cleanupStarted n cleanup)
      let _ ← k.call cleanup []
      note (.cleanupReturned n cleanup))
    (modify (·.popContext rt))
  note (.cleanedUp n)

theorem run_callCleanups_cons (k : Kernel) (n : NodeId) (rt : RuntimeId) (c : Closure)
    (left : List Closure) (w : World) :
    (callCleanups k n rt (c :: left)).run.run w =
      match (k.call c []).run.run (w.note (.cleanupStarted n c)) with
      | (.ok _, w') => (callCleanups k n rt left).run.run (w'.note (.cleanupReturned n c))
      | (.error i, w') => (.error i, w'.popContext rt) := by
  have hcons : ((c :: left).forM fun cleanup => do
        note (.cleanupStarted n cleanup)
        let _ ← k.call cleanup []
        note (.cleanupReturned n cleanup) : Act Unit).run.run w =
      match (k.call c []).run.run (w.note (.cleanupStarted n c)) with
      | (.ok _, w') =>
        (left.forM fun cleanup => do
          note (.cleanupStarted n cleanup)
          let _ ← k.call cleanup []
          note (.cleanupReturned n cleanup) : Act Unit).run.run (w'.note (.cleanupReturned n c))
      | (.error i, w') => (.error i, w') := by
    rw [List.forM, Act.run_bind, Act.run_lift_bind, Change.run_note, Act.run_bind]
    rcases (k.call c []).run.run (w.note (.cleanupStarted n c)) with ⟨i | a, w'⟩ <;> rfl
  rw [callCleanups, Act.run_bind, Act.run_ensuring, hcons]
  rcases (k.call c []).run.run (w.note (.cleanupStarted n c)) with ⟨i | a, w'⟩
  · rfl
  · exact (Act.run_bind _ _ _).symm

theorem run_cleanUp (k : Kernel) {n : NodeId} {e : Effect} {w : World} (he : w.effect? n = some e) :
    (cleanUp k n).run.run w =
      (callCleanups k n e.runtime e.cleanups).run.run (w.cleaning n e.runtime) := by
  rw [cleanUp, Act.run_get_bind, he]
  cases hc : e.cleanups with
  | nil =>
    have hrun : (callCleanups k n e.runtime []).run.run (w.cleaning n e.runtime) =
        (.ok (), ((w.cleaning n e.runtime).popContext e.runtime).note (.cleanedUp n)) := rfl
    rw [hrun, World.cleaning, World.popContext_pushContext]
    simp only [Act.run_modify_bind, hc, List.isEmpty_nil]
    rfl
  | cons c cs =>
    simp only [Act.run_modify_bind, hc, List.isEmpty_cons, Bool.not_false, if_true]
    rfl

def doDuty (k : Kernel) (n : NodeId) (rt : RuntimeId) (callback : Closure) : Duty → Act Unit
  | .keep job => modify (·.modifyEffect n fun e => { e with job := job })
  | .call new old => callWatch k n rt callback new old

theorem runJob_watch (k : Kernel) (n : NodeId) (rt : RuntimeId) (getter callback : Closure)
    (immediate fresh : Bool) (last : Option Result) :
    runJob k n rt (.watch getter callback immediate fresh last) = (do
      let next ← k.call getter []
      note (.watchGot n next)
      ((Job.watch getter callback immediate fresh last).duties next).forM
        (doDuty k n rt callback)) := by
  rw [runJob]
  congr
  funext next
  congr
  funext _
  cases fresh with
  | true =>
    cases immediate with
    | true => simp [Job.duties, doDuty]
    | false => simp [Job.duties, doDuty]
  | false =>
    cases last with
    | none =>
      cases immediate with
      | true => simp [Job.duties, doDuty]
      | false => simp [Job.duties, doDuty]
    | some old =>
      cases h : old.same next with
      | true => simp [Job.duties, h]
      | false => simp [Job.duties, doDuty, h]

/-- What is done for a duty of a watch refers to things that are there. -/
def Duty.Valid (w : World) (n : NodeId) : Duty → Prop
  | .keep job => job.Valid w ∧ job.isWatcher = false ∧ ∀ e, w.effect? n = some e → e.job.Follows job
  | .call new old => new.Valid w ∧ ∀ r, old = some r → r.Valid w

theorem Job.Follows.symm_of_other {i j : Job} (h : i.Follows j) (other : i.isWatcher = false) :
    j.Follows i := by
  cases i <;> cases j <;> simp_all [Job.Follows, Job.isWatcher]

theorem Duty.Valid.mono {w w' : World} {n : NodeId} {d : Duty} (hn : (w.effect? n).isSome)
    (he : w.Extends w') (h : d.Valid w n) : d.Valid w' n := by
  cases d with
  | keep job =>
    obtain ⟨hj, other, hf⟩ := h
    refine ⟨hj.mono he, other, fun e' he' => ?_⟩
    obtain ⟨e, heff⟩ := Option.isSome_iff_exists.1 hn
    obtain ⟨e'', heff', -, hfollows⟩ := he.effects n e heff
    obtain rfl : e'' = e' := Option.some.inj (heff'.symm.trans he')
    have hjob := hf e heff
    have hother : e.job.isWatcher = false := hjob.isWatcher_eq.symm.trans other
    exact (hfollows.symm_of_other hother).trans hjob
  | call new old => exact ⟨h.1.mono he, fun r hr => (h.2 r hr).mono he⟩

/-- Whatever a watch has to do with a result of its getter refers to things that are there. -/
theorem Job.duties_valid {w : World} {n : NodeId} {getter callback : Closure}
    {immediate fresh : Bool} {last : Option Result} {next : Result}
    (hj : (Job.watch getter callback immediate fresh last).Valid w) (hnext : next.Valid w)
    (follows : ∀ e, w.effect? n = some e →
      e.job.Follows (.watch getter callback immediate fresh last)) :
    ∀ d ∈ (Job.watch getter callback immediate fresh last).duties next, d.Valid w n := by
  obtain ⟨hgetter, hcallback, hlast⟩ := hj
  have keep (last' : Option Result) (hlast' : ∀ r, last' = some r → r.Valid w) :
      (Duty.keep (.watch getter callback immediate false last')).Valid w n :=
    ⟨⟨hgetter, hcallback, hlast'⟩, rfl, fun e he => (follows e he).trans ⟨rfl, rfl, rfl⟩⟩
  have keepNone := keep none fun r hr => nomatch hr
  have keepNext := keep (some next) fun r hr => Option.some.inj hr ▸ hnext
  have first : ∀ d ∈ (if immediate then [Duty.call next none] else []), d.Valid w n := by
    intro d hd
    split at hd
    · obtain rfl := List.mem_singleton.1 hd
      exact ⟨hnext, fun r hr => nomatch hr⟩
    · cases hd
  intro d hd
  cases fresh with
  | true =>
    simp only [Job.duties, List.cons_append, List.mem_cons, List.mem_append, List.not_mem_nil,
      or_false] at hd
    rcases hd with rfl | hd | rfl
    · exact keepNone
    · exact first d hd
    · exact keepNext
  | false =>
    cases last with
    | none =>
      rcases List.mem_cons.1 hd with rfl | hd
      · exact keepNext
      · exact first d hd
    | some old =>
      simp only [Job.duties] at hd
      split at hd
      · cases hd
      · rcases List.mem_cons.1 hd with rfl | hd
        · exact keepNext
        · obtain rfl := List.mem_singleton.1 hd
          exact ⟨hnext, hlast⟩

section Stages

variable {R : Config → Prop} {k : Kernel} (hk : k.Sound R) {w : World} {g : List Frame}
variable {n : NodeId} {rt : RuntimeId}

theorem Ready.amid (h : Ready w g) {s : Stage} (code : s.isCode) (valid : (Frame.amid s).Valid w) :
    Ready w (.amid s :: g) where
  code := code
  free := h.free
  frames f hf := by
    rcases List.mem_cons.1 hf with rfl | hf
    · exact valid
    · exact h.frames f hf

include hk

theorem Kernel.Sound.runs_callCleanups (free : Free w g) {left : List Closure}
    (hleft : ∀ c ∈ left, c.Valid w) :
    Runs R (.amid (.cleaning n rt left) :: g) g g (callCleanups k n rt left)
      (fun _ w' => ∃ old, w'.history = .cleanedUp n :: old) w := by
  induction left generalizing w with
  | nil => exact .step hk.closed (pure ()) .endCleaning rfl (.pure ⟨_, rfl⟩)
  | cons c left ih =>
    intro hr
    have hs := (hk.closed.sane hr).frames
    have hstart : Step ⟨w, .amid (.cleaning n rt (c :: left)) :: g, false⟩
        ⟨w.note (.cleanupStarted n c), .amid (.cleanup n rt c left) :: g, false⟩ := .advance .clean
    have hr₁ := hk.closed.step hr hstart
    have free₁ : Free (w.note (.cleanupStarted n c)) g :=
      free.mono hstart.extends fun f hf => hs f (List.mem_cons_of_mem _ hf)
    have noArgs : ∀ r ∈ ([] : List Result), r.Valid (w.note (.cleanupStarted n c)) := by rintro r ⟨⟩
    have hcall := hk.call (g := .amid (.cleanup n rt c left) :: g) rfl free₁
      ((hleft c List.mem_cons_self).mono hstart.extends) noArgs hr₁
    rw [run_callCleanups_cons]
    generalize (k.call c []).run.run (w.note (.cleanupStarted n c)) = o at hcall ⊢
    rcases o with ⟨i | a, w₂⟩
    · obtain ⟨hr₂, he₂, hi⟩ := hcall
      exact ⟨hk.closed.step hr₂ (.abandonCleaning rfl), hstart.extends.trans (he₂.trans (.popContext ..)),
        hi.mono hstart.extends (.popContext ..)⟩
    · obtain ⟨hr₂, he₂, -⟩ := hcall
      have hreturn : Step ⟨w₂, .amid (.cleanup n rt c left) :: g, false⟩
          ⟨w₂.note (.cleanupReturned n c), .amid (.cleaning n rt left) :: g, false⟩ :=
        .advance .cleaned
      have he := hstart.extends.trans (he₂.trans hreturn.extends)
      have hrest := ih (free.mono he fun f hf => hs f (List.mem_cons_of_mem _ hf))
        (fun x hx => (hleft x (List.mem_cons_of_mem _ hx)).mono he) (hk.closed.step hr₂ hreturn)
      exact hrest.mono he fun _ _ _ h => h

theorem Kernel.Sound.runs_duty (ready : Ready w g) {rt : RuntimeId} (hrt : rt < w.runtimes.size)
    {callback : Closure} (hcallback : callback.Valid w) {d : Duty} (hd : d.Valid w n)
    (other : w.isWatcher n = false) {duties : List Duty} :
    Runs R (.amid (.reporting n (d :: duties)) :: g) g (.amid (.reporting n duties) :: g)
      (doDuty k n rt callback d) (fun _ _ => True) w := by
  cases d with
  | keep job =>
    exact .lift (.of_step hk.closed (.keep hd.1 other hd.2.2) fun _ => trivial)
  | call new old =>
    intro hr
    have hvalid := (hk.closed.sane hr).frames _ List.mem_cons_self
    have hcall : Step ⟨w, .amid (.reporting n (.call new old :: duties)) :: g, false⟩
        ⟨w.note (.watchCalled n new old), .amid (.calling n new old duties) :: g, false⟩ :=
      .advance .call
    have he := hcall.extends
    have ready₁ : Ready (w.note (.watchCalled n new old)) (.amid (.calling n new old duties) :: g) :=
      (ready.mono he).amid rfl (hvalid.mono he)
    have hcalled : Runs R (.amid (.calling n new old duties) :: g) g
        (.amid (.calling n new old duties) :: g)
        (untracked rt do let _ ← k.call callback [new, old.getD .nothing]) (fun _ _ => True)
        (w.note (.watchCalled n new old)) := by
      refine .drop hk.closed (f := .amid (.calling n new old duties)) rfl ?_
      refine hk.runs_untracked (fun _ _ => trivial) ready₁ (he.runtimes rt hrt).1 fun {w₂} he₂ ready₂ => ?_
      have hx := he.trans he₂
      have hargs : ∀ r ∈ [new, old.getD .nothing], r.Valid w₂ := by
        intro r hr
        rcases List.mem_cons.1 hr with rfl | hr
        · exact hd.1.mono hx
        · obtain rfl := List.mem_singleton.1 hr
          cases old with
          | none => trivial
          | some r => exact (hd.2 r rfl).mono hx
      exact (hk.call ready₂.code ready₂.free (hcallback.mono hx) hargs).bind
        fun _ _ _ _ _ => .pure trivial
    exact Runs.step hk.closed (do
      untracked rt do let _ ← k.call callback [new, old.getD .nothing]
      note (.watchReturned n)) hcall rfl (hcalled.bind fun _ _ _ _ _ =>
        .lift (.of_step hk.closed (.advance .called) fun _ => trivial)) hr

theorem Kernel.Sound.runs_duties (ready : Ready w g) {rt : RuntimeId} (hrt : rt < w.runtimes.size)
    {callback : Closure} (hcallback : callback.Valid w) (hn : (w.effect? n).isSome)
    (other : w.isWatcher n = false) {duties : List Duty} (hduties : ∀ d ∈ duties, d.Valid w n) :
    Runs R (.amid (.reporting n duties) :: g) g g (duties.forM (doDuty k n rt callback))
      (fun _ _ => True) w := by
  induction duties generalizing w with
  | nil => exact .step hk.closed (pure ()) .endReport rfl (.pure trivial)
  | cons d duties ih =>
    refine (hk.runs_duty ready hrt hcallback (hduties d List.mem_cons_self) other).bind
      fun _ w₁ _ he _ => ?_
    exact ih (ready.mono he) (he.runtimes rt hrt).1 (hcallback.mono he) (he.isSome_effect? hn)
      ((he.isWatcher_eq hn).trans other) fun d' hd' =>
        (hduties d' (List.mem_cons_of_mem _ hd')).mono hn he

theorem Kernel.Sound.runs_watch {rt rt' : RuntimeId} (ready : Ready w (.running n rt' :: g))
    (hrt : rt < w.runtimes.size) {e : Effect} (he : w.effect? n = some e) {getter callback : Closure}
    {immediate fresh : Bool} {last : Option Result}
    (hjob : e.job = .watch getter callback immediate fresh last) (hvalid : e.job.Valid w) :
    Runs R (.running n rt' :: g) (.running n rt' :: g) (.running n rt' :: g)
      (runJob k n rt e.job) (fun _ _ => True) w := by
  have hn := Option.isSome_of_eq_some he
  have other : w.isWatcher n = false := by rw [World.isWatcher, he, Option.any_some, hjob]; rfl
  have hv : (Job.watch getter callback immediate fresh last).Valid w := hjob ▸ hvalid
  obtain ⟨hgetter, hcallback, hlast⟩ := hv
  have ready₁ : Ready w (.amid (.getting n e.job) :: .running n rt' :: g) :=
    ready.amid rfl ⟨hn, by rintro rt ⟨⟩⟩
  have noArgs : ∀ r ∈ ([] : List Result), r.Valid w := fun r hr => absurd hr List.not_mem_nil
  refine .step hk.closed _ (.beginWatch he other) rfl ?_
  rw [hjob, runJob_watch]
  rw [hjob] at ready₁
  refine Runs.bind (P := fun r w' => r.Valid w') (.drop hk.closed
    (f := .amid (.getting n (.watch getter callback immediate fresh last))) rfl
      (hk.call ready₁.code ready₁.free hgetter noArgs)) fun next w₁ _ he₁ hnext => ?_
  have hgot : Step ⟨w₁, .amid (.getting n (.watch getter callback immediate fresh last)) ::
      .running n rt' :: g, false⟩ ⟨w₁.note (.watchGot n next), _, false⟩ := .advance .got
  have hx := he₁.trans hgot.extends
  refine .step hk.closed _ hgot (Act.run_lift_bind ..) ?_
  refine hk.runs_duties (ready.mono hx) (hx.runtimes rt hrt).1 (hcallback.mono hx)
    (hx.isSome_effect? hn) ((hx.isWatcher_eq hn).trans other) ?_
  refine Job.duties_valid ⟨hgetter.mono hx, hcallback.mono hx, fun r hr => (hlast r hr).mono hx⟩
    (hnext.mono hgot.extends) fun e' he' => ?_
  obtain ⟨e'', heff, -, hf⟩ := hx.effects n e he
  obtain rfl : e'' = e' := Option.some.inj (heff.symm.trans he')
  exact (hjob ▸ hf).symm_of_other rfl

end Stages

end Reactivity
