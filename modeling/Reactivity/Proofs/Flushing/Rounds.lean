import Reactivity.Proofs.Flushing.Turns
import Reactivity.Proofs.Registration.Dropping

namespace Reactivity

/-- `TakeTurns k rt batch w turns o w'`: beginning in the first state, the effects of a round have
their turns one after the other, up to an interrupt. Those that are found to be disposed of have
none. -/
inductive TakeTurns (k : Kernel) (rt : RuntimeId) :
    List NodeId → World → List Turn → Except Interrupt Unit → World → Prop
  | done {w : World} : TakeTurns k rt [] w [] (.ok ()) w
  | skip {n : NodeId} {batch : List NodeId} {w w' : World} {turns : List Turn}
    {o : Except Interrupt Unit} (disposed : w.isDisposed n)
    (rest : TakeTurns k rt batch w turns o w') : TakeTurns k rt (n :: batch) w turns o w'
  | take {n : NodeId} {batch : List NodeId} {w w₁ w' : World} {turns : List Turn}
    {o : Except Interrupt Unit} (live : w.isDisposed n = false)
    (run : (runEffect k rt n).run.run (w.note (.turnBegan rt n)) = (.ok (), w₁))
    (rest : TakeTurns k rt batch (w₁.note (.turnEnded rt n)) turns o w') :
    TakeTurns k rt (n :: batch) w (⟨n, w, .ok (), w₁⟩ :: turns) o w'
  | cut {n : NodeId} {batch : List NodeId} {w w₁ : World} {i : Interrupt}
    (live : w.isDisposed n = false)
    (run : (runEffect k rt n).run.run (w.note (.turnBegan rt n)) = (.error i, w₁)) :
    TakeTurns k rt (n :: batch) w [⟨n, w, .error i, w₁⟩] (.error i) w₁

/-- A round of a flush: the states in which it begins and is over, and the turns in it. -/
structure Round where
  before : World
  turns : List Turn
  after : World

/-- How the rounds of a flush end. -/
inductive Ending
  /-- Nothing waits. -/
  | emptied
  /-- As many rounds as may be run have left something in the queue, which is dropped. -/
  | givenUp
  | interrupted (i : Interrupt)

/-- `TakeRounds k rt left w rounds e w'`: beginning in the first state, no more than the given number
of rounds take place one after the other, each with what waits when it begins. -/
inductive TakeRounds (k : Kernel) (rt : RuntimeId) :
    Nat → World → List Round → Ending → World → Prop
  | done {left : Nat} {w : World} (empty : w.queue rt = []) : TakeRounds k rt left w [] .emptied w
  | giveUp {w : World} (work : w.queue rt ≠ []) : TakeRounds k rt 0 w [] .givenUp (w.gaveUp rt)
  | round {left : Nat} {w w₁ w' : World} {turns : List Turn} {rounds : List Round} {e : Ending}
    (work : w.queue rt ≠ []) (taken : TakeTurns k rt (w.queue rt) (w.roundBegun rt) turns (.ok ()) w₁)
    (rest : TakeRounds k rt left w₁ rounds e w') :
    TakeRounds k rt (left + 1) w (⟨w, turns, w₁⟩ :: rounds) e w'
  | cut {left : Nat} {w w₁ : World} {turns : List Turn} {i : Interrupt} (work : w.queue rt ≠ [])
    (taken : TakeTurns k rt (w.queue rt) (w.roundBegun rt) turns (.error i) w₁) :
    TakeRounds k rt (left + 1) w [⟨w, turns, w₁⟩] (.interrupted i) w₁

/-- What a flush returns after some rounds, on top of what it has done before. -/
def Ending.result (cap : Nat) (stats : FlushReport) (rounds : List Round) :
    Ending → Except Interrupt (Except StateError FlushReport)
  | .emptied => .ok (.ok ⟨stats.rounds + rounds.length,
      stats.effectsRun + (rounds.flatMap Round.turns).length⟩)
  | .givenUp => .ok (.error (.cycleDetected (stats.rounds + rounds.length) cap))
  | .interrupted i => .error i

section Loops

variable (k : Kernel) (rt : RuntimeId)

/-- The loop over the effects of a round gives them their turns, and counts these. -/
theorem exists_takeTurns (batch : List NodeId) (w : World) : ∃ turns o w',
    TakeTurns k rt batch w turns o w' ∧
      (runBatch k rt batch).run.run w = (o.map fun _ => turns.length, w') := by
  induction batch generalizing w with
  | nil => exact ⟨[], .ok (), w, .done, rfl⟩
  | cons n batch ih =>
    rw [runBatch, Act.run_get_bind]
    cases live : w.isDisposed n with
    | true =>
      obtain ⟨turns, o, w', hturns, hrun⟩ := ih w
      exact ⟨turns, o, w', .skip live hturns, hrun⟩
    | false =>
      simp only [Bool.false_eq_true, if_false]
      rw [Act.run_lift_bind, Act.run_bind]
      rcases hrun : (runEffect k rt n).run.run (w.note (.turnBegan rt n)) with ⟨i | _, w₁⟩
      · refine ⟨[⟨n, w, .error i, w₁⟩], .error i, w₁, .cut live hrun, ?_⟩
        rw [Change.run_note, hrun]
        rfl
      · obtain ⟨turns, o, w', hturns, hrest⟩ := ih (w₁.note (.turnEnded rt n))
        refine ⟨⟨n, w, .ok (), w₁⟩ :: turns, o, w', .take live hrun hturns, ?_⟩
        rw [Change.run_note, hrun]
        simp only
        rw [Act.run_lift_bind, Change.run_note, Act.run_bind, hrest]
        cases o <;> rfl

/-- The loop of a flush takes rounds, and counts these and the turns in them. -/
theorem exists_takeRounds (cap left : Nat) (stats : FlushReport) (w : World) : ∃ rounds e w',
    TakeRounds k rt left w rounds e w' ∧
      (runRounds k rt cap left stats).run.run w = (e.result cap stats rounds, w') := by
  induction left generalizing w stats with
  | zero =>
    by_cases hq : w.queue rt = []
    · exact ⟨[], .emptied, w, .done hq, run_runRounds_done hq⟩
    · exact ⟨[], .givenUp, w.gaveUp rt, .giveUp hq, run_runRounds_zero hq⟩
  | succ left ih =>
    by_cases hq : w.queue rt = []
    · exact ⟨[], .emptied, w, .done hq, run_runRounds_done hq⟩
    · obtain ⟨turns, o, w₁, hturns, hbatch⟩ := exists_takeTurns k rt (w.queue rt) (w.roundBegun rt)
      rw [World.queue] at hbatch
      rw [run_runRounds_succ hq, Act.run_bind, hbatch]
      cases o with
      | error i => exact ⟨[⟨w, turns, w₁⟩], .interrupted i, w₁, .cut hq hturns, rfl⟩
      | ok =>
        obtain ⟨rounds, e, w', hrounds, hrun⟩ :=
          ih ⟨stats.rounds + 1, stats.effectsRun + turns.length⟩ w₁
        refine ⟨⟨w, turns, w₁⟩ :: rounds, e, w', .round hq hturns hrounds, ?_⟩
        refine hrun.trans (congrArg (·, w') ?_)
        cases e <;> simp [Ending.result, Nat.add_assoc, Nat.add_comm 1]

end Loops

/-- The effects have their turns in the order in which they were queued, and each has one at most. -/
theorem TakeTurns.sublist {k : Kernel} {rt : RuntimeId} {batch : List NodeId} {w w' : World}
    {turns : List Turn} {o : Except Interrupt Unit} (h : TakeTurns k rt batch w turns o w') :
    (turns.map Turn.effect).Sublist batch := by
  induction h with
  | done => exact .slnil
  | skip _ _ ih => exact ih.cons _
  | take _ _ _ ih => exact ih.cons_cons _
  | cut _ _ => exact (List.nil_sublist _).cons_cons _

/-- Where the machine is when some turns have been taken: at the end of the round, or on the way out
of the flush. -/
def Config.afterTurns (w : World) (rt : RuntimeId) (g : List Frame) : Except Interrupt Unit → Config
  | .ok _ => ⟨w, .round rt [] :: .flushing rt :: g, false⟩
  | .error _ => ⟨w, .flushing rt :: g, true⟩

/-- `Paced rt turns w w'`: between the two states a flush of the runtime goes on by the turns only. -/
def Paced (rt : RuntimeId) (turns : List Turn) (w w' : World) : Prop :=
  ∃ new, w'.history = new ++ w.history ∧
    ∀ e ∈ new, e.isPace rt → ∃ t ∈ turns, e = .turnBegan rt t.effect

section Turns

variable {settings : Settings} {hook : Hook} {w w' : World} {g : List Frame} {rt : RuntimeId}
variable {n : NodeId} {batch : List NodeId} {depth : Nat} {turns : List Turn}
variable {o : Except Interrupt Unit}

/-- In the turn of an effect the flush does not go on, except that the turn begins. -/
theorem Turn.Proper.paced (h : Turn.Proper rt ⟨n, w, o, w'⟩)
    (he : (w.note (.turnBegan rt n)).Extends w') : Paced rt [⟨n, w, o, w'⟩] w w' := by
  obtain ⟨new, hnew⟩ := he.history
  have hcount : w'.paceCount rt = new.countP (Event.isPace rt) + (w.paceCount rt + 1) := by
    rw [World.paceCount, ← hnew, List.countP_append, World.history_note, List.countP_cons_of_pos
      (by simp [Event.isPace]), World.paceCount]
  have alone : w'.paceCount rt = w.paceCount rt + 1 := h.alone
  have hnone : new.countP (Event.isPace rt) = 0 := by omega
  refine ⟨new ++ [.turnBegan rt n], by rw [← hnew]; simp, fun e hm hp => ?_⟩
  rcases List.mem_append.1 hm with hm | hm
  · exact absurd hp (List.countP_eq_zero.1 hnone e hm)
  · exact ⟨_, List.mem_singleton_self _, List.mem_singleton.1 hm⟩

theorem Reaches.turn (h : Reaches (.start settings hook)
      ⟨w, .round rt (n :: batch) :: .flushing rt :: g, false⟩)
    (live : w.isDisposed n = false)
    (hrun : (runEffect (kernel depth) rt n).run.run (w.note (.turnBegan rt n)) = (o, w')) :
    (w.note (.turnBegan rt n)).Extends w' ∧
      match o with
      | .ok _ => Reaches (.start settings hook)
          ⟨w'.note (.turnEnded rt n), .round rt batch :: .flushing rt :: g, false⟩
      | .error _ => Reaches (.start settings hook) ⟨w', .flushing rt :: g, true⟩ := by
  have hk := sound_kernel settings hook depth
  have valid : rt < w.runtimes.size :=
    (h.sane (Config.start_sane settings hook)).frames (.flushing rt) (by simp)
  have hruns : Runs _ (.pending n :: .round rt batch :: .flushing rt :: g) _ _
      (runEffect (kernel depth) rt n) _ (w.note (.turnBegan rt n)) :=
    hk.runs_runEffect trivial valid
  have hends := hruns.drop hk.closed (f := .round rt batch) trivial (h.tail (.beginTurn live))
  rw [hrun] at hends
  cases o with
  | ok => exact ⟨hends.2.1, hends.1.tail (.aside (.turnEnded rt n))⟩
  | error i => exact ⟨hends.2.1, hends.1⟩

/-- In the middle of a round an effect is running if it was when the flush began. -/
theorem Reaches.isRunning_in_round {s : List Frame} (h : Reaches (.start settings hook) ⟨w, s, false⟩)
    (hs : ∀ n, s.countP (Frame.runs n) = g.countP (Frame.runs n)) (n : NodeId) :
    (w.isRunning n).toNat = g.countP (Frame.runs n) :=
  (h.lives n).frames.symm.trans (hs n)

theorem TakeTurns.reaches (h : TakeTurns (kernel depth) rt batch w turns o w')
    (hreach : Reaches (.start settings hook) ⟨w, .round rt batch :: .flushing rt :: g, false⟩) :
    Reaches (.start settings hook) (.afterTurns w' rt g o) ∧ Paced rt turns w w' ∧
      ∀ t ∈ turns, t.Proper rt ∧
        (t.before.isRunning t.effect).toNat = g.countP (Frame.runs t.effect) := by
  induction h with
  | done => exact ⟨hreach, ⟨[], rfl, nofun⟩, nofun⟩
  | skip disposed _ ih => exact ih (hreach.tail (.skipTurn disposed))
  | @take n batch w w₁ w' turns o live run rest ih =>
    have proper := hreach.proper_turn live run
    obtain ⟨he, hnext⟩ := hreach.turn live run
    obtain ⟨new, hnew, hpace⟩ := proper.paced he
    obtain ⟨hend, ⟨later, hlater, hpaces⟩, hturns⟩ := ih hnext
    refine ⟨hend, ⟨later ++ .turnEnded rt n :: new, ?_, fun e hm hp => ?_⟩, fun t ht => ?_⟩
    · rw [hlater, World.history_note, hnew]
      simp
    · rcases List.mem_append.1 hm with hm | hm
      · obtain ⟨t, ht, rfl⟩ := hpaces e hm hp
        exact ⟨t, List.mem_cons_of_mem _ ht, rfl⟩
      · rcases List.mem_cons.1 hm with rfl | hm
        · cases hp
        · obtain ⟨t, ht, rfl⟩ := hpace e hm hp
          exact ⟨t, List.mem_singleton.1 ht ▸ List.mem_cons_self, rfl⟩
    · rcases List.mem_cons.1 ht with rfl | ht
      · exact ⟨proper, hreach.isRunning_in_round (fun _ => rfl) n⟩
      · exact hturns t ht
  | @cut n batch w w₁ i live run =>
    have proper := hreach.proper_turn live run
    obtain ⟨he, hend⟩ := hreach.turn live run
    refine ⟨hend, proper.paced he, fun t ht => ?_⟩
    obtain rfl := List.mem_singleton.1 ht
    exact ⟨proper, hreach.isRunning_in_round (fun _ => rfl) n⟩

end Turns

/-- A round goes as it should. It begins with the effects that have been queued since the one before,
or since what was queued was dropped, each of which has one place. They have their turns in this order;
nothing else goes on in flushes of the runtime; and what has been queued since the round began waits
when it is over, each effect once. -/
structure Round.InOrder (rt : RuntimeId) (r : Round) : Prop where
  queue : r.before.queue rt = waiting rt r.before.history
  once : (r.before.queue rt).Nodup
  order : (r.turns.map Turn.effect).Sublist (r.before.queue rt)
  proper : ∀ t ∈ r.turns, t.Proper rt
  next : ∃ new, r.after.history = new ++ (r.before.roundBegun rt).history ∧
    (∀ e ∈ new, e.isPace rt → ∃ t ∈ r.turns, e = .turnBegan rt t.effect) ∧
      r.after.queue rt = waiting rt new ∧ (r.after.queue rt).Nodup

theorem waiting_append_roundBegan (rt : RuntimeId) (new : List Event) (batch : List NodeId)
    (old : List Event) : waiting rt (new ++ .roundBegan rt batch :: old) = waiting rt new := by
  induction new with
  | nil => exact if_pos rfl
  | cons e new ih => cases e <;> simp only [List.cons_append, waiting, ih]

theorem Reaches.queued {settings : Settings} {hook : Hook} {c : Config}
    (h : Reaches (.start settings hook) c) (rt : RuntimeId) : c.world.Queued rt := by
  induction h with
  | refl =>
    have hq : (World.start settings hook).queue rt = [] := by
      rw [World.queue, World.runtime]
      cases rt <;> rfl
    exact ⟨hq.symm, hq ▸ List.nodup_nil⟩
  | tail steps step ih =>
    have hs := steps.sane (Config.start_sane settings hook)
    exact (step.beats hs).queued hs ih

section Rounds

variable {settings : Settings} {hook : Hook} {w w' : World} {g : List Frame} {rt : RuntimeId}
variable {depth left : Nat} {turns : List Turn} {rounds : List Round} {e : Ending}

theorem TakeTurns.inOrder {o : Except Interrupt Unit}
    (h : TakeTurns (kernel depth) rt (w.queue rt) (w.roundBegun rt) turns o w')
    (hreach : Reaches (.start settings hook) ⟨w, .flushing rt :: g, false⟩)
    (work : w.queue rt ≠ []) :
    Round.InOrder rt ⟨w, turns, w'⟩ ∧ Reaches (.start settings hook) (.afterTurns w' rt g o) ∧
      ∀ t ∈ turns, (t.before.isRunning t.effect).toNat = g.countP (Frame.runs t.effect) := by
  have hbegun := hreach.tail (.beginRound work)
  obtain ⟨hend, ⟨new, hnew, hpace⟩, hturns⟩ := h.reaches hbegun
  have hqueued := hreach.queued rt
  have hafter : w'.Queued rt := by
    have hq := hend.queued rt
    cases o <;> exact hq
  refine ⟨⟨hqueued.waiting.symm, hqueued.nodup, h.sublist, fun t ht => (hturns t ht).1,
    new, hnew, hpace, ?_, hafter.nodup⟩, hend, fun t ht => (hturns t ht).2⟩
  change w'.queue rt = waiting rt new
  rw [← hafter.waiting, hnew]
  exact waiting_append_roundBegan rt new _ _

theorem TakeRounds.inOrder (h : TakeRounds (kernel depth) rt left w rounds e w') {s : List Frame}
    (hreach : Reaches (.start settings hook) ⟨w, s, false⟩)
    (frames : s = .flushing rt :: g ∨ s = .round rt [] :: .flushing rt :: g) :
    ∀ r ∈ rounds, r.InOrder rt ∧
      ∀ t ∈ r.turns, (t.before.isRunning t.effect).toNat = g.countP (Frame.runs t.effect) := by
  have leave {w : World} {s : List Frame} (hreach : Reaches (.start settings hook) ⟨w, s, false⟩)
      (frames : s = .flushing rt :: g ∨ s = .round rt [] :: .flushing rt :: g) :
      Reaches (.start settings hook) ⟨w, .flushing rt :: g, false⟩ := by
    rcases frames with rfl | rfl
    · exact hreach
    · exact hreach.tail .endRound
  induction h generalizing s with
  | done _ => exact nofun
  | giveUp _ => exact nofun
  | round work taken _ ih =>
    obtain ⟨hround, hend, hbusy⟩ := taken.inOrder (leave hreach frames) work
    refine List.forall_mem_cons.2 ⟨⟨hround, hbusy⟩, ih hend (.inr rfl)⟩
  | cut work taken =>
    obtain ⟨hround, -, hbusy⟩ := taken.inOrder (leave hreach frames) work
    exact List.forall_mem_singleton.2 ⟨hround, hbusy⟩

end Rounds

section Flush

variable {settings : Settings} {hook : Hook} {w : World} {g : List Frame} {rt : RuntimeId}

theorem run_flush_nested (k : Kernel) (nested : (w.runtime rt).flushing) :
    (flush k rt).run.run w = (.ok (.ok ⟨0, 0⟩), w) := by
  rw [flush, Act.run_get_bind]
  simp only [nested, if_true]
  rfl

theorem exists_takeRounds_flush (depth : Nat) (idle : (w.runtime rt).flushing = false) :
    ∃ rounds e w', TakeRounds (kernel depth) rt (w.runtime rt).settings.flushCap (w.flushBegun rt)
        rounds e w' ∧
      (flush (kernel depth) rt).run.run w =
        (e.result (w.runtime rt).settings.flushCap ⟨0, 0⟩ rounds, w'.flushEnded rt) := by
  obtain ⟨rounds, e, w', hrounds, hrun⟩ := exists_takeRounds (kernel depth) rt
    (w.runtime rt).settings.flushCap (w.runtime rt).settings.flushCap ⟨0, 0⟩ (w.flushBegun rt)
  refine ⟨rounds, e, w', hrounds, ?_⟩
  rw [run_flush_idle _ idle, kernel_observe, Act.run_bind, Act.run_ensuring, hrun]
  cases e <;> rfl

/-- Wherever a program may flush a runtime, the flush runs effects in rounds, up to the point where
something is thrown: each round gives a turn to the effects that wait when it begins, in the order in
which they were queued, and leaves what is queued meanwhile to the next one. A flush that is begun
during another one of the runtime runs nothing. -/
theorem flush_in_order (hreach : Reaches (.start settings hook) ⟨w, g, false⟩)
    (code : AtCode g ∨ AtTelling g ∧ (w.runtime rt).hook = .flush) (free : AtCode g → Free w g)
    (own : TellsFor rt g) (valid : rt < w.runtimes.size) (depth : Nat) :
    ((w.runtime rt).flushing → (flush (kernel depth) rt).run.run w = (.ok (.ok ⟨0, 0⟩), w)) ∧
    ((w.runtime rt).flushing = false → ∃ rounds e w',
      TakeRounds (kernel depth) rt (w.runtime rt).settings.flushCap (w.flushBegun rt) rounds e w' ∧
        (∀ r ∈ rounds, r.InOrder rt) ∧
          (flush (kernel depth) rt).run.run w =
            (e.result (w.runtime rt).settings.flushCap ⟨0, 0⟩ rounds, w'.flushEnded rt)) := by
  refine ⟨run_flush_nested _, fun idle => ?_⟩
  obtain ⟨rounds, e, w', hrounds, hrun⟩ := exists_takeRounds_flush depth idle
  have hbegun := hreach.tail (.beginFlush code free valid idle own)
  exact ⟨rounds, e, w', hrounds, fun r hr => (hrounds.inOrder hbegun (.inl rfl) r hr).1, hrun⟩

end Flush

def awaitingFlush : List Expr :=
  withObject [.effect (readProperty "x"), writeProperty "x" (.literal .null)]

theorem after_awaitingFlush :
    (World.after .standard .manual 3 awaitingFlush).runtimes.size = 1 ∧
      ((World.after .standard .manual 3 awaitingFlush).runtime 0).flushing = false ∧
      (World.after .standard .manual 3 awaitingFlush).queue 0 = [0] := by
  cbv

theorem flush_in_order_awaitingFlush :
    (World.after .standard .manual 3 awaitingFlush).queue 0 = [0] ∧ ∃ rounds e w',
      TakeRounds (kernel 3) 0
        ((World.after .standard .manual 3 awaitingFlush).runtime 0).settings.flushCap
        ((World.after .standard .manual 3 awaitingFlush).flushBegun 0) rounds e w' ∧
        (∀ r ∈ rounds, r.InOrder 0) ∧
          (flush (kernel 3) 0).run.run (World.after .standard .manual 3 awaitingFlush) =
            (e.result ((World.after .standard .manual 3 awaitingFlush).runtime 0).settings.flushCap
              ⟨0, 0⟩ rounds, w'.flushEnded 0) := by
  have hreach := reaches_after .standard .manual 3 awaitingFlush
  obtain ⟨size, idle, queue⟩ := after_awaitingFlush
  generalize World.after .standard .manual 3 awaitingFlush = w at *
  exact ⟨queue, (flush_in_order hreach (.inl trivial) (fun _ => trivial)
    (AtCode.tellsFor (g := []) trivial 0) (size ▸ Nat.one_pos) 3).2 idle⟩

/-- The last effect flushes in its first run. It waits itself then, and so does the first effect, which
makes the second one wait. -/
def relayingWithin : List Expr :=
  withObject [.effect (writeProperty "y" (readProperty "x")), .effect (readProperty "y"),
    .effect (.block [readProperty "z", writeProperty "z" (.literal .null),
      writeProperty "x" (.literal (.bool true)), .apply .flush []])]

set_option maxRecDepth 2000 in
theorem after_relayingWithin :
    (World.after ⟨1⟩ .manual 3 relayingWithin).history.take 19 =
      ([.finished 2, .flushEnded 0, .gaveUp 0, .turnEnded 0 0, .finished 0, .queued 0 1,
        .triggered (.object 0) (.property "y"),
        .wrote (.property 0 "y" (some (.value .null)) (some (.bool true))),
        .saw 0 (.property 0 "x") (.value (.bool true)), .tracked 0 (.object 0) (.property "x"),
        .started 0, .cleared 0, .cleanedUp 0, .turnBegan 0 0, .turnEnded 0 2, .cleared 2,
        .cleanedUp 2, .turnBegan 0 2] : List Event) ++ ([.roundBegan 0 [2, 0]] : List Event) ∧
    (World.after ⟨1⟩ .manual 3 relayingWithin).queue 0 = [] ∧
    (World.after ⟨1⟩ .manual 3 relayingWithin).isDisposed 1 = false := by
  cbv

/-- An effect that is running further out is not started in its turn, and what is queued in a round
has no place in another one if there is none, although nothing throws. -/
theorem round_runs_less : ∃ later old : List Event,
    (World.after ⟨1⟩ .manual 3 relayingWithin).history = later ++ .roundBegan 0 [2, 0] :: old ∧
      (∀ m, .threw m ∉ later) ∧ .turnBegan 0 2 ∈ later ∧ .started 2 ∉ later ∧
      .queued 0 1 ∈ later ∧ .flushEnded 0 ∈ later ∧ .turnBegan 0 1 ∉ later ∧
    (World.after ⟨1⟩ .manual 3 relayingWithin).queue 0 = [] ∧
    (World.after ⟨1⟩ .manual 3 relayingWithin).isDisposed 1 = false := by
  obtain ⟨recent, queue, live⟩ := after_relayingWithin
  generalize World.after ⟨1⟩ .manual 3 relayingWithin = w at *
  obtain ⟨old, history⟩ := List.prefix_iff_eq_take.2 recent.symm
  refine ⟨_, old, ((List.append_cons _ _ _).trans history).symm, ?_, ?_, ?_, ?_, ?_, ?_, queue, live⟩
  all_goals simp

end Reactivity
