import Reactivity.Proofs.Run.Running

namespace Reactivity

def World.roundsBegun (w : World) (rt : RuntimeId) : Nat :=
  w.history.countP fun
    | .roundBegan rt' _ => rt' == rt
    | _ => false

theorem World.Extends.roundsBegun_le {w w' : World} (h : w.Extends w') (rt : RuntimeId) :
    w.roundsBegun rt ≤ w'.roundsBegun rt :=
  h.history.sublist.countP_le

namespace World

def flushBegun (w : World) (rt : RuntimeId) : World :=
  (w.note (.flushBegan rt)).modifyRuntime rt fun r =>
    { r with flushing := true, flushRequested := false }

def roundBegun (w : World) (rt : RuntimeId) : World :=
  (w.modifyRuntime rt fun r => { r with queue := [] }).note
    (.roundBegan rt (w.runtime rt).queue)

def gaveUp (w : World) (rt : RuntimeId) : World :=
  (w.modifyRuntime rt fun r => { r with queue := [] }).note (.gaveUp rt)

def flushEnded (w : World) (rt : RuntimeId) : World :=
  (w.modifyRuntime rt fun r => { r with flushing := false }).note (.flushEnded rt)

end World

section Loop

variable {k : Kernel} {rt : RuntimeId} {cap left : Nat} {stats : FlushReport} {w : World}

theorem run_runRounds_done (hq : (w.runtime rt).queue = []) :
    (runRounds k rt cap left stats).run.run w = (.ok (.ok stats), w) := by
  cases left with
  | zero =>
    rw [runRounds, Act.run_get_bind]
    simp only [hq, List.isEmpty_nil, if_true]
    rfl
  | succ left =>
    rw [runRounds, Act.run_get_bind]
    simp only [hq, List.isEmpty_nil, if_true]
    rfl

theorem run_runRounds_zero (hq : (w.runtime rt).queue ≠ []) :
    (runRounds k rt cap 0 stats).run.run w =
      (.ok (.error (.cycleDetected stats.rounds cap)), w.gaveUp rt) := by
  rw [runRounds, Act.run_get_bind]
  simp only [List.isEmpty_iff, hq, if_false]
  rfl

theorem run_runRounds_succ (hq : (w.runtime rt).queue ≠ []) :
    (runRounds k rt cap (left + 1) stats).run.run w = (do
      let count ← runBatch k rt (w.runtime rt).queue
      runRounds k rt cap left ⟨stats.rounds + 1, stats.effectsRun + count⟩).run.run
        (w.roundBegun rt) := by
  rw [runRounds, Act.run_get_bind]
  simp only [List.isEmpty_iff, hq, if_false]
  rfl

end Loop

section Rounds

variable {R : Config → Prop} {k : Kernel} (hk : k.Sound R) {w : World} {g : List Frame}
variable {rt : RuntimeId}
include hk

theorem Kernel.Sound.runs_batch (hrt : rt < w.runtimes.size) {batch : List NodeId} :
    Runs R (.round rt batch :: .flushing rt :: g) (.flushing rt :: g)
      (.round rt [] :: .flushing rt :: g) (runBatch k rt batch) (fun _ _ => True) w := by
  induction batch generalizing w with
  | nil => exact .pure trivial
  | cons n batch ih =>
    rw [runBatch]
    refine .get_bind ?_
    split
    · next hd => exact .step hk.closed (runBatch k rt batch) (.skipTurn hd) rfl (ih hrt)
    · next hd =>
      have hbegin : Step ⟨w, .round rt (n :: batch) :: .flushing rt :: g, false⟩
          ⟨w.note (.turnBegan rt n), .pending n :: .round rt batch :: .flushing rt :: g, false⟩ :=
        .beginTurn (eq_false_of_ne_true hd)
      have he := World.Extends.note w (.turnBegan rt n)
      have free : Free (w.note (.turnBegan rt n)) (.flushing rt :: g) := trivial
      refine .step hk.closed _ hbegin (Act.run_lift_bind ..) ?_
      refine Runs.bind (.drop hk.closed (f := .round rt batch) trivial
        (hk.runs_runEffect free hrt)) fun _ w₁ hr₁ he₁ _ => ?_
      have hended := World.Extends.note w₁ (.turnEnded rt n)
      refine .step hk.closed _ (.aside (.turnEnded rt n)) (Act.run_lift_bind ..) ?_
      exact Runs.bind (ih (((he.trans he₁).trans hended).runtimes rt hrt).1)
        fun _ _ _ _ _ => .pure trivial

/-- Rounds are run until nothing is queued. A round that has come to its end is left only then, or
when the next one begins. -/
theorem Kernel.Sound.runs_rounds (hrt : rt < w.runtimes.size) {s : List Frame} {cap left : Nat}
    {stats : FlushReport} (frames : s = .round rt [] :: .flushing rt :: g ∨
      s = .flushing rt :: g ∧ (left = 0 → (w.runtime rt).settings.flushCap = 0)) :
    Runs R s (.flushing rt :: g) (.flushing rt :: g) (runRounds k rt cap left stats)
      (fun outcome w' => (w'.runtime rt).queue = [] ∧ ∀ stats', outcome = .ok stats' →
        stats'.rounds + w.roundsBegun rt ≤ stats.rounds + w'.roundsBegun rt) w := by
  have leave {s : List Frame} {w : World} {P : Prop} {act : Act (Except StateError FlushReport)}
      {Q : Except StateError FlushReport → World → Prop}
      (frames : s = .round rt [] :: .flushing rt :: g ∨ s = .flushing rt :: g ∧ P)
      (h : Runs R (.flushing rt :: g) (.flushing rt :: g) (.flushing rt :: g) act Q w) :
      Runs R s (.flushing rt :: g) (.flushing rt :: g) act Q w := by
    rcases frames with rfl | ⟨rfl, -⟩
    · exact .step hk.closed act .endRound rfl h
    · exact h
  have done {s : List Frame} {left : Nat} {w : World} {stats : FlushReport} {P : Prop}
      (frames : s = .round rt [] :: .flushing rt :: g ∨ s = .flushing rt :: g ∧ P)
      (hq : (w.runtime rt).queue = []) :
      Runs R s (.flushing rt :: g) (.flushing rt :: g)
        (runRounds k rt cap left stats)
        (fun outcome w' => (w'.runtime rt).queue = [] ∧ ∀ stats', outcome = .ok stats' →
          stats'.rounds + w.roundsBegun rt ≤ stats.rounds + w'.roundsBegun rt) w := by
    refine leave frames (.of_run (run_runRounds_done hq) ⟨hq, fun stats' h => ?_⟩)
    exact Nat.le_of_eq (by rw [Except.ok.inj h])
  induction left generalizing w s stats with
  | zero =>
    by_cases hq : (w.runtime rt).queue = []
    · exact done frames hq
    · refine .step hk.closed (pure (.error (.cycleDetected stats.rounds cap)))
        (.giveUp hq (frames.imp_right fun h => ⟨h.1, h.2 rfl⟩)) (run_runRounds_zero hq)
        (.pure ⟨?_, nofun⟩)
      have hempty :
          ((w.modifyRuntime rt fun r => { r with queue := [] }).runtime rt).queue = [] := by
        rw [World.runtime_modifyRuntime, if_pos ⟨rfl, hrt⟩]
      exact hempty
  | succ left ih =>
    by_cases hq : (w.runtime rt).queue = []
    · exact done frames hq
    · have hbegin : Step ⟨w, .flushing rt :: g, false⟩ _ := .beginRound hq
      have he := hbegin.extends
      refine leave frames (.step hk.closed _ hbegin (run_runRounds_succ hq) ?_)
      refine (hk.runs_batch (he.runtimes rt hrt).1).bind fun count w₁ _ he₁ _ => ?_
      refine (ih ((he.trans he₁).runtimes rt hrt).1 (.inl rfl)).mono
        fun outcome w₂ _ _ ⟨hqueue, hrounds⟩ => ⟨hqueue, fun stats' h => ?_⟩
      have hle := hrounds stats' h
      have hbegun : w.roundsBegun rt + 1 ≤ w₁.roundsBegun rt := by
        refine Nat.le_trans (Nat.le_of_eq ?_) (he₁.roundsBegun_le rt)
        rw [World.roundsBegun, World.roundsBegun, World.note, List.countP_cons]
        simp only [beq_self_eq_true, if_true]
        rfl
      simp only at hle
      omega

end Rounds

section Flush

theorem run_flush_idle (k : Kernel) {rt : RuntimeId} {w : World} (hf : (w.runtime rt).flushing = false) :
    (flush k rt).run.run w = (do
      let outcome ← (runRounds k rt (w.runtime rt).settings.flushCap
        (w.runtime rt).settings.flushCap ⟨0, 0⟩).ensuring do
          modify (·.modifyRuntime rt fun r => { r with flushing := false })
          note (.flushEnded rt)
      k.observe
      return outcome : Act (Except StateError FlushReport)).run.run (w.flushBegun rt) := by
  rw [flush, Act.run_get_bind]
  simp only [hf, Bool.false_eq_true, if_false]
  rfl

theorem does_endFlush {R : Config → Prop} (hR : Closed R) {w : World} {g : List Frame} {u : Bool}
    {rt : RuntimeId} (done : u = false → (w.runtime rt).queue = []) :
    Does R (.flushing rt :: g) u g
      (do
        modify (·.modifyRuntime rt fun r => { r with flushing := false })
        note (.flushEnded rt))
      (fun _ w' => ∃ old, w'.history = .flushEnded rt :: old) w :=
  .of_step hR (.endFlush done) fun _ => ⟨_, rfl⟩

variable {R : Config → Prop} {k : Kernel} (hk : k.Sound R) {w : World} {g : List Frame}
variable {rt : RuntimeId}
include hk

theorem Kernel.Sound.runs_begun (hrt : rt < w.runtimes.size) {cap : Nat}
    (hcap : (w.runtime rt).settings.flushCap = cap) :
    Runs R (.flushing rt :: g) g g
      ((runRounds k rt cap cap ⟨0, 0⟩).ensuring do
        modify (·.modifyRuntime rt fun r => { r with flushing := false })
        note (.flushEnded rt))
      (fun outcome w' => (∃ old, w'.history = .flushEnded rt :: old) ∧
        ∀ stats, outcome = .ok stats →
          stats.rounds + w.roundsBegun rt ≤ w'.roundsBegun rt) w := by
  refine (hk.runs_rounds hrt (.inr ⟨rfl, fun h => hcap.trans h⟩)).ensuring
      (fun outcome w₁ _ _ h => ?_) fun w₁ _ _ =>
    (does_endFlush hk.closed (u := true) (by simp)).mono fun _ _ _ _ _ => trivial
  refine (does_endFlush hk.closed fun _ => h.1).mono fun _ w₂ _ he₂ hh => ⟨hh, fun stats hs => ?_⟩
  have hle : stats.rounds + w.roundsBegun rt ≤ 0 + w₁.roundsBegun rt := h.2 stats hs
  have hended := he₂.roundsBegun_le rt
  omega

theorem Kernel.Sound.runs_flush (code : AtCode g ∨ AtTelling g ∧ (w.runtime rt).hook = .flush)
    (free : AtCode g → Free w g) (own : TellsFor rt g) (hrt : rt < w.runtimes.size) :
    Runs R g g g (flush k rt)
      (fun outcome w' => ∀ stats, outcome = .ok stats →
        stats.rounds + w.roundsBegun rt ≤ w'.roundsBegun rt) w := by
  cases hf : (w.runtime rt).flushing with
  | true =>
    refine .of_run (a := .ok ⟨0, 0⟩) ?_ fun stats h => ?_
    · rw [flush, Act.run_get_bind]
      simp only [hf, if_true]
      rfl
    · rw [← Except.ok.inj h]
      exact Nat.le_of_eq (Nat.zero_add _)
  | false =>
    have hbegin := Step.beginFlush code free hrt hf own
    have he := hbegin.extends
    refine .step hk.closed _ hbegin (run_flush_idle k hf) ?_
    refine (hk.runs_begun (he.runtimes rt hrt).1 (congrArg Settings.flushCap (he.runtimes rt hrt).2.1)).bind
      fun outcome w₁ hr₁ he₁ ⟨hh, h⟩ => ?_
    have hook := ((he.trans he₁).runtimes rt hrt).2.2
    refine hk.runs_observed (code.imp_right fun hc => ⟨hc.1, rt, hook.trans hc.2, hh⟩)
      fun w₂ he₂ => .pure fun stats hs => ?_
    have hle := Nat.le_trans (Nat.add_le_add_left (he.roundsBegun_le rt) _) (h stats hs)
    exact Nat.le_trans hle (he₂.roundsBegun_le rt)

end Flush

end Reactivity
