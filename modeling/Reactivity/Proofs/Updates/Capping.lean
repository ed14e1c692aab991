import Reactivity.Proofs.Registration.Dropping
import Reactivity.Proofs.Updates.Performing

namespace Reactivity

/-- `Rounds k rt n w count w'`: `n` rounds of a flush lead from one state to the other, and run as many
effects. Each of them finds something queued. -/
inductive Rounds (k : Kernel) (rt : RuntimeId) : Nat → World → Nat → World → Prop
  | none {w : World} : Rounds k rt 0 w 0 w
  | round {n count more : Nat} {w w₁ w₂ : World} (work : (w.runtime rt).queue ≠ [])
    (run : (runBatch k rt (w.runtime rt).queue).run.run (w.roundBegun rt) = (.ok count, w₁))
    (rest : Rounds k rt n w₁ more w₂) : Rounds k rt (n + 1) w (count + more) w₂

section Rounds

variable {k : Kernel} {rt : RuntimeId} {n m count count' cap left : Nat} {w w' w₁ w₂ : World}

theorem Rounds.eq_of_done (h : Rounds k rt n w count w₁) (done : (w₁.runtime rt).queue = [])
    (h' : Rounds k rt m w count' w₂) (hm : n ≤ m) : w₂ = w₁ := by
  induction h generalizing m count' with
  | none =>
    cases h' with
    | none => rfl
    | round work => exact absurd done work
  | round work run rest ih =>
    cases h' with
    | none => cases hm
    | round _ run' rest' =>
      obtain ⟨-, rfl⟩ := Prod.mk.inj (run.symm.trans run')
      exact ih done rest' (Nat.le_of_succ_le_succ hm)

/-- The loop of a flush returns where nothing is queued, or after the last round that may be run. -/
theorem rounds_of_run {stats : FlushReport} {outcome : Except StateError FlushReport}
    (h : (runRounds k rt cap left stats).run.run w = (.ok outcome, w')) :
    ∃ n count w₁, Rounds k rt n w count w₁ ∧
      (n ≤ left ∧ (w₁.runtime rt).queue = [] ∧ w' = w₁ ∧
          outcome = .ok ⟨stats.rounds + n, stats.effectsRun + count⟩ ∨
        n = left ∧ (w₁.runtime rt).queue ≠ [] ∧ w' = w₁.gaveUp rt ∧
          outcome = .error (.cycleDetected (stats.rounds + n) cap)) := by
  induction left generalizing w stats with
  | zero =>
    by_cases hq : (w.runtime rt).queue = []
    · rw [run_runRounds_done hq] at h
      obtain ⟨ho, rfl⟩ := Prod.mk.inj h
      exact ⟨0, 0, w, .none, .inl ⟨Nat.le_refl 0, hq, rfl, (Except.ok.inj ho).symm⟩⟩
    · rw [run_runRounds_zero hq] at h
      obtain ⟨ho, rfl⟩ := Prod.mk.inj h
      exact ⟨0, 0, w, .none, .inr ⟨rfl, hq, rfl, (Except.ok.inj ho).symm⟩⟩
  | succ left ih =>
    by_cases hq : (w.runtime rt).queue = []
    · rw [run_runRounds_done hq] at h
      obtain ⟨ho, rfl⟩ := Prod.mk.inj h
      exact ⟨0, 0, w, .none, .inl ⟨Nat.zero_le _, hq, rfl, (Except.ok.inj ho).symm⟩⟩
    · rw [run_runRounds_succ hq, Act.run_bind] at h
      rcases hbatch : (runBatch k rt (w.runtime rt).queue).run.run (w.roundBegun rt) with ⟨i | c, w₁⟩
      · rw [hbatch] at h
        cases (Prod.mk.inj h).1
      · rw [hbatch] at h
        obtain ⟨n, count, w₂, hrounds, hend⟩ := ih h
        refine ⟨n + 1, c + count, w₂, .round hq hbatch hrounds, ?_⟩
        simp only [Nat.add_assoc, Nat.add_comm 1] at hend
        exact hend.imp (And.imp_left Nat.succ_le_succ) (And.imp_left (congrArg (· + 1)))

end Rounds

/-- How a flush of a runtime goes that begins in the first state and returns in the second: its rounds
empty the queue, or as many of them as may be run leave something in it, which is dropped then. -/
structure FlushedTo (k : Kernel) (rt : RuntimeId) (w : World)
    (outcome : Except StateError FlushReport) (w' : World) : Prop where
  queue : (w'.runtime rt).queue = []
  flushing : (w'.runtime rt).flushing = false
  givenUp : outcome =
      .error (.cycleDetected (w.runtime rt).settings.flushCap (w.runtime rt).settings.flushCap) ↔
    ∃ count w₁, Rounds k rt (w.runtime rt).settings.flushCap (w.flushBegun rt) count w₁ ∧
      (w₁.runtime rt).queue ≠ []
  finished : (¬ ∃ count w₁, Rounds k rt (w.runtime rt).settings.flushCap (w.flushBegun rt) count w₁ ∧
      (w₁.runtime rt).queue ≠ []) →
    ∃ rounds count w₁, outcome = .ok ⟨rounds, count⟩ ∧
      rounds ≤ (w.runtime rt).settings.flushCap ∧
        Rounds k rt rounds (w.flushBegun rt) count w₁ ∧ (w₁.runtime rt).queue = []

section Flush

variable {rt : RuntimeId} {w w' : World}

theorem World.queue_gaveUp (w : World) (rt : RuntimeId) :
    ((w.gaveUp rt).runtime rt).queue = [] := by
  change ((w.modifyRuntime rt _).runtime rt).queue = []
  rw [runtime_modifyRuntime]
  split
  · rfl
  · next h =>
    have hsize : w.runtimes.size ≤ rt := Nat.le_of_not_lt fun hlt => h ⟨rfl, hlt⟩
    rw [runtime, Array.getElem?_eq_none hsize]
    rfl

theorem World.queue_flushEnded (w : World) (rt : RuntimeId) :
    ((w.flushEnded rt).runtime rt).queue = (w.runtime rt).queue := by
  change ((w.modifyRuntime rt _).runtime rt).queue = _
  rw [runtime_modifyRuntime]
  split <;> rfl

theorem World.flushing_flushEnded (w : World) (rt : RuntimeId) :
    ((w.flushEnded rt).runtime rt).flushing = false := by
  change ((w.modifyRuntime rt _).runtime rt).flushing = false
  rw [runtime_modifyRuntime]
  split
  · rfl
  · next h =>
    have hsize : w.runtimes.size ≤ rt := Nat.le_of_not_lt fun hlt => h ⟨rfl, hlt⟩
    rw [runtime, Array.getElem?_eq_none hsize]
    rfl

theorem flushedTo_of_run {depth : Nat} {outcome : Except StateError FlushReport}
    (outermost : (w.runtime rt).flushing = false)
    (h : (flush (kernel depth) rt).run.run w = (.ok outcome, w')) :
    FlushedTo (kernel depth) rt w outcome w' := by
  rw [run_flush_idle _ outermost, kernel_observe, Act.run_bind, Act.run_ensuring] at h
  rcases hrun : (runRounds (kernel depth) rt (w.runtime rt).settings.flushCap
    (w.runtime rt).settings.flushCap ⟨0, 0⟩).run.run (w.flushBegun rt) with ⟨i | o, w₁⟩
  · rw [hrun] at h
    cases (Prod.mk.inj h).1
  rw [hrun] at h
  obtain ⟨ho, hw⟩ := Prod.mk.inj h
  obtain rfl := Except.ok.inj ho
  have hw : w₁.flushEnded rt = w' := hw
  obtain ⟨n, count, w₂, hrounds, hend⟩ := rounds_of_run hrun
  simp only [Nat.zero_add] at hend
  have queue : (w₁.runtime rt).queue = [] := by
    rcases hend with ⟨-, hq, rfl, -⟩ | ⟨-, -, rfl, -⟩
    · exact hq
    · exact w₂.queue_gaveUp rt
  refine ⟨?_, ?_, ⟨fun herror => ?_, ?_⟩, fun hnone => ?_⟩
  · rw [← hw, World.queue_flushEnded, queue]
  · rw [← hw, World.flushing_flushEnded]
  · rcases hend with ⟨-, -, -, rfl⟩ | ⟨rfl, hq, -, -⟩
    · cases herror
    · exact ⟨count, w₂, hrounds, hq⟩
  · rintro ⟨count', w₃, hrounds', hq'⟩
    rcases hend with ⟨hn, hq, -, -⟩ | ⟨rfl, -, -, rfl⟩
    · exact absurd (hrounds.eq_of_done hq hrounds' hn ▸ hq) hq'
    · rfl
  · rcases hend with ⟨hn, hq, -, rfl⟩ | ⟨rfl, hq, -, -⟩
    · exact ⟨n, count, w₂, rfl, hn, hrounds, hq⟩
    · exact absurd ⟨count, w₂, hrounds, hq⟩ hnone

/-- Wherever nodes are being told of a change, a flush ends as if they were told for its runtime. -/
theorem ends_flush {g : List Frame} (hs : Config.Sane ⟨w, g, false⟩)
    (code : AtCode g ∨ AtTelling g ∧ (w.runtime rt).hook = .flush) (free : AtCode g → Free w g)
    (valid : rt < w.runtimes.size) (depth : Nat) :
    ∃ g', Ends Config.Sane g' g' (fun _ _ => True) w ((flush (kernel depth) rt).run.run w) := by
  have hk : (kernel depth).Sound Config.Sane :=
    Kernel.sound ⟨fun hc step => step.sane hc, fun hc => hc⟩ (fun _ _ _ => ⟨_, rfl, .inl rfl⟩) depth
  rcases code with code | ⟨telling, hook⟩
  · have hruns := hk.runs_flush (.inl code) free (code.tellsFor rt) valid hs
    exact ⟨g, hruns.mono (.refl w) fun _ _ _ _ => trivial⟩
  · obtain _ | ⟨f, g⟩ := g
    · exact telling.elim
    cases f with
    | telling rt' nodes =>
      have hs' : Config.Sane ⟨w, .telling rt [] :: g, false⟩ :=
        hs.exchange (.refl w) hs.world (.of_runtimes rfl) ⟨valid, by simp⟩ fun _ => rfl
      have own : TellsFor rt (.telling rt [] :: g) := by
        rintro rt' nodes s ⟨⟩
        rfl
      have free' : AtCode (.telling rt [] :: g) → Free w (.telling rt [] :: g) := fun hc => hc.elim
      have telling' : AtTelling (.telling rt [] :: g) := trivial
      have hruns := hk.runs_flush (.inr ⟨telling', hook⟩) free' own valid hs'
      exact ⟨_, hruns.mono (.refl w) fun _ _ _ _ => trivial⟩
    | _ => exact telling.elim

/-- Wherever a program may flush a runtime that is not being flushed already, the flush comes to its
end unless something is thrown or bodies are nested too deeply. Then nothing is queued, and no flush
is under way. It was given up if as many rounds as may be run have left something in the queue, be it
disposed of or not; and otherwise it has run no more rounds than that. -/
theorem flush_given_up_iff_queued {settings : Settings} {hook : Hook} {g : List Frame}
    (hreach : Reaches (.start settings hook) ⟨w, g, false⟩)
    (code : AtCode g ∨ AtTelling g ∧ (w.runtime rt).hook = .flush) (free : AtCode g → Free w g)
    (valid : rt < w.runtimes.size) (outermost : (w.runtime rt).flushing = false) (depth : Nat) :
    (∃ outcome w', (flush (kernel depth) rt).run.run w = (.ok outcome, w') ∧
      FlushedTo (kernel depth) rt w outcome w') ∨
    ∃ i w', (flush (kernel depth) rt).run.run w = (.error i, w') ∧ i.Raised w w' := by
  obtain ⟨g', hruns⟩ :=
    ends_flush (hreach.sane (Config.start_sane settings hook)) code free valid depth
  rcases hrun : (flush (kernel depth) rt).run.run w with ⟨i | outcome, w'⟩
  · rw [hrun] at hruns
    exact .inr ⟨i, w', rfl, hruns.2.2⟩
  · exact .inl ⟨outcome, w', rfl, flushedTo_of_run outermost hrun⟩

end Flush

/-- In its second run the last effect writes what the first one reads, and disposes of that. -/
def disposingReader : List Expr :=
  withObject [.assign "r" (.effect (readProperty "y")),
    .effect (.cond (.apply .isNothing [readProperty "x"]) .nothing
      (.block [writeProperty "y" (.literal .null), .apply .dispose [.var "r"]])),
    writeProperty "x" (.literal .null)]

/-- One round leaves nothing but an effect that was disposed of, and the flush is given up for it. -/
theorem flush_given_up_for_disposed : ∃ count w₁,
    Rounds (kernel 3) 0 1 ((World.after ⟨1⟩ .manual 3 disposingReader).flushBegun 0) count w₁ ∧
      (∀ n ∈ (w₁.runtime 0).queue, w₁.isDisposed n) ∧
      ((flush (kernel 3) 0).run.run (World.after ⟨1⟩ .manual 3 disposingReader)).1 =
        .ok (.error (.cycleDetected 1 1)) := by
  have hq : (((World.after ⟨1⟩ .manual 3 disposingReader).flushBegun 0).runtime 0).queue = [1] := by
    cbv
  have hcount : ((runBatch (kernel 3) 0 [1]).run.run
      (((World.after ⟨1⟩ .manual 3 disposingReader).flushBegun 0).roundBegun 0)).1 = .ok 1 := by
    cbv
  have hleft : (((runBatch (kernel 3) 0 [1]).run.run
      (((World.after ⟨1⟩ .manual 3 disposingReader).flushBegun 0).roundBegun 0)).2.runtime 0).queue =
        [0] := by
    cbv
  have hdisposed : ((runBatch (kernel 3) 0 [1]).run.run
      (((World.after ⟨1⟩ .manual 3 disposingReader).flushBegun 0).roundBegun 0)).2.isDisposed 0 := by
    cbv
  have hgiven : ((flush (kernel 3) 0).run.run (World.after ⟨1⟩ .manual 3 disposingReader)).1 =
      .ok (.error (.cycleDetected 1 1)) := by
    cbv
  generalize (World.after ⟨1⟩ .manual 3 disposingReader).flushBegun 0 = w at *
  rcases hrun : (runBatch (kernel 3) 0 [1]).run.run (w.roundBegun 0) with ⟨o, w₁⟩
  rw [hrun] at hcount hleft hdisposed
  obtain rfl : o = .ok 1 := hcount
  refine ⟨1, w₁, .round (by simp [hq]) (hq.symm ▸ hrun) .none, fun n hn => ?_, hgiven⟩
  rw [hleft, List.mem_singleton] at hn
  exact hn ▸ hdisposed

theorem flush_given_up_iff_queued_disposingReader :
    ((∃ outcome w', (flush (kernel 3) 0).run.run (World.after ⟨1⟩ .manual 3 disposingReader) =
        (.ok outcome, w') ∧
      FlushedTo (kernel 3) 0 (World.after ⟨1⟩ .manual 3 disposingReader) outcome w') ∨
    ∃ i w', (flush (kernel 3) 0).run.run (World.after ⟨1⟩ .manual 3 disposingReader) =
      (.error i, w') ∧ i.Raised (World.after ⟨1⟩ .manual 3 disposingReader) w') ∧
    ((flush (kernel 3) 0).run.run (World.after ⟨1⟩ .manual 3 disposingReader)).1 =
      .ok (.error (.cycleDetected 1 1)) := by
  have valid : 0 < (World.after ⟨1⟩ .manual 3 disposingReader).runtimes.size := by
    have size : (World.after ⟨1⟩ .manual 3 disposingReader).runtimes.size = 1 := by cbv
    rw [size]
    exact Nat.one_pos
  have outermost : ((World.after ⟨1⟩ .manual 3 disposingReader).runtime 0).flushing = false := by
    cbv
  have hreach := reaches_after ⟨1⟩ .manual 3 disposingReader
  refine ⟨?_, by cbv⟩
  exact flush_given_up_iff_queued hreach (.inl trivial) (fun _ => trivial) valid
    outermost 3

end Reactivity
