import Reactivity.Proofs.Flushing.Rounds

namespace Reactivity

def Turn.runs (t : Turn) : Nat :=
  t.after.runCount t.effect - t.before.runCount t.effect

/-- In a turn that comes to its end the function of the effect is started and returns, unless it is
running further out. -/
theorem Turn.Proper.runs_eq {rt : RuntimeId} {t : Turn} (h : t.Proper rt) (ended : t.outcome = .ok ()) :
    t.runs = (if t.before.isRunning t.effect then 0 else 1) ∧
      t.after.startCount t.effect = t.before.startCount t.effect + t.runs := by
  rw [Turn.runs]
  cases hb : t.before.isRunning t.effect with
  | true =>
    obtain ⟨starts, runs⟩ := h.busy hb
    simp [starts, runs]
  | false =>
    obtain ⟨starts, runs⟩ := h.idle ended hb
    simp [starts, runs]

section Outcomes

variable {k : Kernel} {rt : RuntimeId} {w w' : World}

theorem TakeTurns.ended {batch : List NodeId} {turns : List Turn} {o : Except Interrupt Unit}
    (h : TakeTurns k rt batch w turns o w') (ho : o = .ok ()) : ∀ t ∈ turns, t.outcome = .ok () := by
  induction h with
  | done => exact nofun
  | skip _ _ ih => exact ih ho
  | take _ _ _ ih => exact List.forall_mem_cons.2 ⟨rfl, ih ho⟩
  | cut _ _ => cases ho

theorem TakeRounds.ended {left : Nat} {rounds : List Round} {e : Ending}
    (h : TakeRounds k rt left w rounds e w') (he : e = .emptied) :
    ∀ t ∈ rounds.flatMap Round.turns, t.outcome = .ok () := by
  induction h with
  | done _ => exact nofun
  | giveUp _ => cases he
  | round _ taken _ ih =>
    rw [List.flatMap_cons]
    exact List.forall_mem_append.2 ⟨taken.ended rfl, ih he⟩
  | cut _ _ => cases he

theorem Ending.result_eq_ok {cap : Nat} {rounds : List Round} {e : Ending} {stats : FlushReport}
    (h : e.result cap ⟨0, 0⟩ rounds = .ok (.ok stats)) :
    e = .emptied ∧ stats = ⟨rounds.length, (rounds.flatMap Round.turns).length⟩ := by
  cases e with
  | emptied =>
    rw [Ending.result] at h
    cases h
    exact ⟨rfl, by simp⟩
  | givenUp => cases h
  | interrupted i => cases h

end Outcomes

/-- Turns are those that run the effect and those that leave it to a run further out. -/
theorem length_eq_sum_runs {p : NodeId → Bool} (turns : List Turn)
    (h : ∀ t ∈ turns, t.runs = if p t.effect then 0 else 1) :
    turns.length = (turns.map Turn.runs).sum + turns.countP (p ·.effect) := by
  induction turns with
  | nil => rfl
  | cons t turns ih =>
    obtain ⟨ht, hturns⟩ := List.forall_mem_cons.1 h
    rw [List.length_cons, List.map_cons, List.sum_cons, List.countP_cons, ht, ih hturns]
    cases p t.effect <;> simp <;> omega

section Flush

variable {settings : Settings} {hook : Hook} {w w' : World} {g : List Frame} {rt : RuntimeId}

/-- A flush that returns has counted the turns of its rounds: what the effects have run in them, and
besides the turns of effects that were running when it began. -/
theorem effectsRun_counts_turns (hreach : Reaches (.start settings hook) ⟨w, g, false⟩)
    (code : AtCode g ∨ AtTelling g ∧ (w.runtime rt).hook = .flush) (free : AtCode g → Free w g)
    (own : TellsFor rt g) (valid : rt < w.runtimes.size) {depth : Nat} {stats : FlushReport}
    (hrun : (flush (kernel depth) rt).run.run w = (.ok (.ok stats), w')) :
    (w.runtime rt).flushing ∧ stats.effectsRun = 0 ∧ w' = w ∨
    ∃ rounds w₁, TakeRounds (kernel depth) rt (w.runtime rt).settings.flushCap (w.flushBegun rt)
        rounds .emptied w₁ ∧ w' = w₁.flushEnded rt ∧
      (∀ t ∈ rounds.flatMap Round.turns, t.runs = (if w.isRunning t.effect then 0 else 1) ∧
        t.after.startCount t.effect = t.before.startCount t.effect + t.runs) ∧
      stats.effectsRun = ((rounds.flatMap Round.turns).map Turn.runs).sum +
        (rounds.flatMap Round.turns).countP (w.isRunning ·.effect) := by
  cases idle : (w.runtime rt).flushing with
  | true =>
    rw [run_flush_nested _ idle] at hrun
    cases hrun
    exact .inl ⟨rfl, rfl, rfl⟩
  | false =>
    obtain ⟨rounds, e, w₁, hrounds, hflush⟩ := exists_takeRounds_flush depth idle
    obtain ⟨hresult, rfl⟩ := Prod.mk.inj (hflush.symm.trans hrun)
    obtain ⟨rfl, rfl⟩ := Ending.result_eq_ok hresult
    have hbegun := hreach.tail (.beginFlush code free valid idle own)
    have hturns : ∀ t ∈ rounds.flatMap Round.turns,
        t.runs = (if w.isRunning t.effect then 0 else 1) ∧
          t.after.startCount t.effect = t.before.startCount t.effect + t.runs := by
      intro t ht
      obtain ⟨r, hr, htr⟩ := List.mem_flatMap.1 ht
      obtain ⟨inOrder, busy⟩ := hrounds.inOrder hbegun (.inl rfl) r hr
      have hbusy : t.before.isRunning t.effect = w.isRunning t.effect := by
        have hcount := (busy t htr).trans (hreach.lives t.effect).frames
        rw [Bool.eq_iff_iff, ← Bool.toNat_eq_one, ← Bool.toNat_eq_one, hcount]
      rw [← hbusy]
      exact (inOrder.proper t htr).runs_eq (hrounds.ended rfl t ht)
    exact .inr ⟨rounds, w₁, hrounds, rfl, hturns,
      length_eq_sum_runs _ fun t ht => (hturns t ht).1⟩

end Flush

theorem effectsRun_counts_turns_awaitingFlush : ∃ rounds w₁,
    (flush (kernel 3) 0).run.run (World.after .standard .manual 3 awaitingFlush) =
      (.ok (.ok ⟨1, 1⟩), w₁.flushEnded 0) ∧
    TakeRounds (kernel 3) 0
      ((World.after .standard .manual 3 awaitingFlush).runtime 0).settings.flushCap
      ((World.after .standard .manual 3 awaitingFlush).flushBegun 0) rounds .emptied w₁ ∧
    (∀ t ∈ rounds.flatMap Round.turns,
      t.runs = (if (World.after .standard .manual 3 awaitingFlush).isRunning t.effect then 0 else 1) ∧
        t.after.startCount t.effect = t.before.startCount t.effect + t.runs) ∧
    1 = ((rounds.flatMap Round.turns).map Turn.runs).sum + (rounds.flatMap Round.turns).countP
      ((World.after .standard .manual 3 awaitingFlush).isRunning ·.effect) := by
  obtain ⟨size, -, -⟩ := after_awaitingFlush
  have hrun : ((flush (kernel 3) 0).run.run (World.after .standard .manual 3 awaitingFlush)).1 =
      .ok (.ok ⟨1, 1⟩) := by
    cbv
  have hreach := reaches_after .standard .manual 3 awaitingFlush
  generalize World.after .standard .manual 3 awaitingFlush = w at *
  rcases h : (flush (kernel 3) 0).run.run w with ⟨o, w'⟩
  rw [h] at hrun
  obtain rfl : o = .ok (.ok ⟨1, 1⟩) := hrun
  rcases effectsRun_counts_turns hreach (.inl trivial) (fun _ => trivial)
    (AtCode.tellsFor (g := []) trivial 0) (size ▸ Nat.one_pos) h with ⟨-, none, -⟩ | ⟨rounds, w₁, taken, rfl, counted⟩
  · cases none
  · exact ⟨rounds, w₁, rfl, taken, counted⟩

def flushingWithin : List Expr :=
  withObject [.effect (.block [readProperty "x", writeProperty "x" (.literal .null),
    .log [.apply .flush []]])]

theorem after_flushingWithin :
    (World.after .standard .manual 3 flushingWithin).history.take 8 =
      ([.finished 0, .flushEnded 0, .turnEnded 0 0, .cleared 0, .cleanedUp 0, .turnBegan 0 0,
        .roundBegan 0 [0]] : List Event) ++ ([.flushBegan 0] : List Event) ∧
    (World.after .standard .manual 3 flushingWithin).log.head? = some (.stats ⟨1, 1⟩) := by
  cbv

/-- The flush reports that it has run an effect, but nothing was run in it. -/
theorem idle_turn_counted : ∃ later old : List Event,
    (World.after .standard .manual 3 flushingWithin).history = later ++ .flushBegan 0 :: old ∧
      (∀ n, .started n ∉ later) ∧ (∀ m, .threw m ∉ later) ∧
    (World.after .standard .manual 3 flushingWithin).log.head? = some (.stats ⟨1, 1⟩) := by
  obtain ⟨recent, logged⟩ := after_flushingWithin
  generalize World.after .standard .manual 3 flushingWithin = w at *
  obtain ⟨old, history⟩ := List.prefix_iff_eq_take.2 recent.symm
  exact ⟨_, old, ((List.append_cons _ _ _).trans history).symm, by simp, by simp, logged⟩

end Reactivity
