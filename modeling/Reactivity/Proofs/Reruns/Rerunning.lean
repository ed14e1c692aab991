import Reactivity.Proofs.Reruns.Waking
import Reactivity.Proofs.Flushing.Rounds

namespace Reactivity

def Event.isTurn (rt : RuntimeId) (n : NodeId) : Event → Bool
  | .turnBegan rt' m => rt' == rt && m == n
  | _ => false

def World.turnCount (w : World) (rt : RuntimeId) (n : NodeId) : Nat :=
  w.history.countP (Event.isTurn rt n)

def Frame.leads (n : NodeId) : Frame → Bool
  | .pending m | .created m => m == n
  | _ => false

theorem World.Extends.turnCount_le {w w' : World} (h : w.Extends w') (rt : RuntimeId) (n : NodeId) :
    w.turnCount rt n ≤ w'.turnCount rt n :=
  h.history.sublist.countP_le

theorem World.Extends.startCount_le {w w' : World} (h : w.Extends w') (n : NodeId) :
    w.startCount n ≤ w'.startCount n :=
  h.history.sublist.countP_le

theorem Beats.starts_le {c c' : Config} (hb : Beats c c') (he : c.world.Extends c'.world)
    (rt : RuntimeId) {n : NodeId} (effect : (c.world.effect? n).isSome)
    (only : ∀ rt' batch, .round rt' batch ∈ c.stack → rt' = rt) :
    (ongoing c'.stack).countP (Frame.leads n) + c'.world.startCount n + c.world.turnCount rt n ≤
      (ongoing c.stack).countP (Frame.leads n) + c.world.startCount n + c'.world.turnCount rt n := by
  have turns := he.turnCount_le rt n
  -- Where no turn begins, whoever is started was about to be.
  have quiet (starts : c'.world.startCount n = c.world.startCount n)
      (frames : (ongoing c'.stack).countP (Frame.leads n) ≤ (ongoing c.stack).countP (Frame.leads n)) :
      (ongoing c'.stack).countP (Frame.leads n) + c'.world.startCount n + c.world.turnCount rt n ≤
        (ongoing c.stack).countP (Frame.leads n) + c.world.startCount n + c'.world.turnCount rt n := by
    omega
  cases hb with
  | rest world frames =>
    exact quiet (World.Rests.of_placid world rt n).starts (Nat.le_of_eq (congrArg _ frames))
  | @enqueue w₁ w₂ g g' rt' m world _ _ frames =>
    exact quiet ((World.Rests.of_placid world rt n).trans (.queuedIn w₂ rt' m)).starts
      (Nat.le_of_eq (congrArg _ frames))
  | @compute w₁ w₂ g g' m memo world frames =>
    have hmn : m ≠ n := by
      rintro rfl
      rw [World.memo?_eq_none_of_effect? effect] at memo
      cases memo
    have hs : (Event.started m).isStart n = false := beq_eq_false_iff_ne.2 hmn
    exact quiet ((World.Rests.of_placid world rt n).trans (.note w₂ hs rfl)).starts
      (Nat.le_of_eq (congrArg _ frames))
  | @make w₁ w₂ g world =>
    have hne : w₁.nodes.size ≠ n := (Nat.ne_of_lt (World.lt_of_effect? effect)).symm
    refine quiet (World.Rests.of_placid world rt n).starts (Nat.le_of_eq ?_)
    exact List.countP_cons_of_neg (by simpa [Frame.leads] using hne)
  | @leave w₁ w₂ f g g' u world left frames =>
    refine quiet (World.Rests.of_placid world rt n).starts ?_
    simp only [frames]
    exact (List.sublist_cons_self f _).countP_le
  | @start w₁ f g m rt' idle turn =>
    have hframes : (ongoing (f :: g)).countP (Frame.leads n) =
        (ongoing g).countP (Frame.leads n) + if m == n then 1 else 0 := by
      rcases turn with rfl | rfl <;> exact List.countP_cons
    have hframes' : (ongoing (.running m rt' :: g)).countP (Frame.leads n) =
        (ongoing g).countP (Frame.leads n) := List.countP_cons_of_neg (by simp [Frame.leads])
    have hstarts : (w₁.running m rt').startCount n = w₁.startCount n + if m == n then 1 else 0 := by
      rw [World.startCount, World.history_running, List.countP_cons,
        List.countP_cons_of_neg (by simp [Event.isStart])]
      rfl
    simp only [hframes, hframes', hstarts] at turns ⊢
    omega
  | @finish w₁ g g' m rt' frames =>
    refine quiet rfl ?_
    simp only [frames]
    exact (List.sublist_cons_self _ _).countP_le
  | abandon => exact quiet rfl (Nat.le_refl _)
  | beginFlush _ _ => exact quiet rfl (Nat.le_refl _)
  | beginRound => exact quiet rfl (Nat.le_refl _)
  | @giveUp w₁ g g' rt' frames =>
    refine quiet rfl ?_
    rcases frames with hf | hf <;> simp [ongoing, hf, Frame.leads]
  | skipTurn => exact quiet rfl (Nat.le_refl _)
  | @beginTurn w₁ g rt' m batch =>
    obtain rfl := only rt' _ List.mem_cons_self
    have hframes : (ongoing (.pending m :: .round rt' batch :: g)).countP (Frame.leads n) =
        (ongoing (.round rt' batch :: g)).countP (Frame.leads n) + if m == n then 1 else 0 :=
      List.countP_cons
    have hturns : (w₁.note (.turnBegan rt' m)).turnCount rt' n =
        w₁.turnCount rt' n + if m == n then 1 else 0 := by
      rw [World.turnCount, World.history_note, List.countP_cons, Event.isTurn, beq_self_eq_true,
        Bool.true_and]
      rfl
    have hstarts : (w₁.note (.turnBegan rt' m)).startCount n = w₁.startCount n := rfl
    have hround : (ongoing (.round rt' (m :: batch) :: g)).countP (Frame.leads n) =
        (ongoing (.round rt' batch :: g)).countP (Frame.leads n) := rfl
    simp only [hframes, hturns, hstarts, hround]
    omega
  | endFlush => exact quiet rfl (Nat.le_refl _)

theorem Reaches.starts_le {c c' : Config} (h : Reaches c c') (hc : c.Sane) {n : NodeId}
    (effect : (c.world.effect? n).isSome) (only : ∀ rt, rt < c'.world.runtimes.size → rt = 0) :
    (ongoing c'.stack).countP (Frame.leads n) + c'.world.startCount n + c.world.turnCount 0 n ≤
      (ongoing c.stack).countP (Frame.leads n) + c.world.startCount n + c'.world.turnCount 0 n := by
  induction h with
  | refl => exact Nat.le_refl _
  | @tail c₁ c₂ steps step ih =>
    have hs := steps.sane hc
    have only' (rt : RuntimeId) (hrt : rt < c₁.world.runtimes.size) : rt = 0 :=
      only rt (step.extends.runtimes rt hrt).1
    have hbefore := ih only'
    have hstep := (step.beats hs).starts_le step.extends 0 (n := n)
      (steps.extends.isSome_effect? effect) fun rt batch hr => only' rt (hs.frames _ hr).1
    omega

section Rounds

variable {settings : Settings} {hook : Hook} {w w' : World} {g : List Frame} {rt : RuntimeId}
variable {n : NodeId} {batch : List NodeId} {depth left : Nat} {turns : List Turn}
variable {rounds : List Round} {o : Except Interrupt Unit} {e : Ending}

theorem Turn.Proper.turnCount_eq (h : Turn.Proper rt ⟨n, w, o, w'⟩)
    (he : (w.note (.turnBegan rt n)).Extends w') (m : NodeId) :
    w'.turnCount rt m = w.turnCount rt m + if n == m then 1 else 0 := by
  obtain ⟨new, hnew⟩ := he.history
  have alone : w'.paceCount rt = w.paceCount rt + 1 := h.alone
  have hpace : w'.paceCount rt = new.countP (Event.isPace rt) + (w.paceCount rt + 1) := by
    rw [World.paceCount, ← hnew, List.countP_append, World.history_note, List.countP_cons_of_pos
      (by simp [Event.isPace]), World.paceCount]
  have hle : new.countP (Event.isTurn rt m) ≤ new.countP (Event.isPace rt) := by
    refine List.countP_mono_left fun e _ ht => ?_
    cases e with
    | turnBegan rt' m' =>
      rw [Event.isTurn, Bool.and_eq_true] at ht
      exact ht.1
    | _ => cases ht
  have hnone : new.countP (Event.isTurn rt m) = 0 := by omega
  rw [World.turnCount, ← hnew, List.countP_append, hnone, Nat.zero_add, World.history_note,
    List.countP_cons, Event.isTurn, beq_self_eq_true, Bool.true_and]
  rfl

theorem TakeTurns.extends (h : TakeTurns (kernel depth) rt batch w turns o w')
    (hreach : Reaches (.start settings hook) ⟨w, .round rt batch :: .flushing rt :: g, false⟩) :
    w.Extends w' := by
  induction h with
  | @done w => exact .refl w
  | skip disposed _ ih => exact ih (hreach.tail (.skipTurn disposed))
  | @take n batch w w₁ w' turns o live run rest ih =>
    obtain ⟨he, hnext⟩ := hreach.turn live run
    exact (((World.Extends.note w _).trans he).trans (.note w₁ _)).trans (ih hnext)
  | @cut n batch w w₁ i live run => exact (World.Extends.note w _).trans (hreach.turn live run).1

theorem TakeTurns.turnCount_eq (h : TakeTurns (kernel depth) rt batch w turns o w')
    (hreach : Reaches (.start settings hook) ⟨w, .round rt batch :: .flushing rt :: g, false⟩)
    (m : NodeId) : w'.turnCount rt m = w.turnCount rt m + (turns.map Turn.effect).count m := by
  induction h with
  | done => rfl
  | skip disposed _ ih => exact ih (hreach.tail (.skipTurn disposed))
  | @take n batch w w₁ w' turns o live run rest ih =>
    obtain ⟨he, hnext⟩ := hreach.turn live run
    have hturn := (hreach.proper_turn live run).turnCount_eq he m
    have hended : (w₁.note (.turnEnded rt n)).turnCount rt m = w₁.turnCount rt m := rfl
    rw [ih hnext, hended, hturn, List.map_cons, List.count_cons, Nat.add_assoc,
      Nat.add_comm (List.count ..)]
  | @cut n batch w w₁ i live run =>
    have hturn := (hreach.proper_turn live run).turnCount_eq (hreach.turn live run).1 m
    rw [hturn, List.map_singleton, List.count_singleton]

/-- Whoever has a turn in a round is started, if the round goes to its end and they are not running
further out. -/
theorem TakeTurns.startCount_lt (h : TakeTurns (kernel depth) rt batch w turns o w')
    (hreach : Reaches (.start settings hook) ⟨w, [.round rt batch, .flushing rt], false⟩)
    (ended : o = .ok ()) {m : NodeId} (hm : m ∈ turns.map Turn.effect) :
    w.startCount m < w'.startCount m := by
  induction h with
  | done => cases hm
  | skip disposed _ ih => exact ih (hreach.tail (.skipTurn disposed)) ended hm
  | @take n batch w w₁ w' turns o live run rest ih =>
    obtain ⟨he, hnext⟩ := hreach.turn live run
    have hturn : w.startCount m ≤ w₁.startCount m :=
      ((World.Extends.note w (.turnBegan rt n)).trans he).startCount_le m
    have hrest : w₁.startCount m ≤ w'.startCount m :=
      ((World.Extends.note w₁ (.turnEnded rt n)).trans (rest.extends hnext)).startCount_le m
    rcases List.mem_cons.1 hm with hmn | hm
    · obtain rfl : m = n := hmn
      have idle : w.isRunning m = false := by
        have hcount := hreach.isRunning_in_round (g := []) (fun _ => rfl) m
        simpa using hcount
      have hstarts : w₁.startCount m = w.startCount m + 1 :=
        ((hreach.proper_turn live run).idle rfl idle).1
      exact Nat.lt_of_lt_of_le (hstarts ▸ Nat.lt_succ_self _) hrest
    · exact Nat.lt_of_le_of_lt hturn (ih hnext ended hm)
  | cut _ _ => cases ended

/-- Whoever is not disposed of when a round has gone to its end has had a turn in it. -/
theorem TakeTurns.mem_turns (h : TakeTurns (kernel depth) rt batch w turns o w')
    (hreach : Reaches (.start settings hook) ⟨w, .round rt batch :: .flushing rt :: g, false⟩)
    (ended : o = .ok ()) {m : NodeId} (hm : m ∈ batch) (live : w'.isDisposed m = false) :
    m ∈ turns.map Turn.effect := by
  induction h with
  | done => cases hm
  | @skip n batch w w' turns o disposed rest ih =>
    have hnext := hreach.tail (.skipTurn disposed)
    rcases List.mem_cons.1 hm with rfl | hm
    · have hd := (rest.extends hnext).disposed m disposed
      exact absurd (hd.symm.trans live) (by simp)
    · exact ih hnext ended hm live
  | @take n batch w w₁ w' turns o _ run rest ih =>
    obtain ⟨-, hnext⟩ := hreach.turn ‹_› run
    rcases List.mem_cons.1 hm with rfl | hm
    · exact List.mem_cons_self
    · exact List.mem_cons_of_mem _ (ih hnext ended hm live)
  | cut _ _ => cases ended

theorem TakeRounds.extends (h : TakeRounds (kernel depth) rt left w rounds e w') {s : List Frame}
    (hreach : Reaches (.start settings hook) ⟨w, s, false⟩)
    (frames : s = .flushing rt :: g ∨ s = .round rt [] :: .flushing rt :: g) : w.Extends w' := by
  have begun {w : World} {s : List Frame} (hreach : Reaches (.start settings hook) ⟨w, s, false⟩)
      (frames : s = .flushing rt :: g ∨ s = .round rt [] :: .flushing rt :: g) (work : w.queue rt ≠ []) :
      Reaches (.start settings hook)
        ⟨w.roundBegun rt, .round rt (w.queue rt) :: .flushing rt :: g, false⟩ := by
    rcases frames with rfl | rfl
    · exact hreach.tail (.beginRound work)
    · exact (hreach.tail .endRound).tail (.beginRound work)
  induction h generalizing s with
  | @done _ w _ => exact .refl w
  | giveUp work => exact (Step.giveUp (g := []) work (.inl rfl)).extends
  | round work taken _ ih =>
    have hbegun := begun hreach frames work
    have hend : Reaches (.start settings hook) _ := (taken.reaches hbegun).1
    exact ((Step.beginRound (g := []) work).extends.trans (taken.extends hbegun)).trans
      (ih hend (.inr rfl))
  | cut work taken =>
    exact (Step.beginRound (g := []) work).extends.trans (taken.extends (begun hreach frames work))

end Rounds

section Flush

variable {settings : Settings} {hook : Hook} {w₀ w w' : World} {past burst : List Event} {depth : Nat}
variable {o : Except Interrupt (Except StateError FlushReport)}

theorem Reaches.has_runtime (h : Reaches (.start settings hook) ⟨w, [], false⟩) :
    0 < w.runtimes.size :=
  (h.extends.runtimes 0 Nat.one_pos).1

theorem Reaches.not_flushing (h : Reaches (.start settings hook) ⟨w, [], false⟩) (rt : RuntimeId) :
    (w.runtime rt).flushing = false := by
  have hcount := (h.asks rt).count
  by_contra hf
  simp [hf, flushes] at hcount

theorem Reaches.flushed (h : Reaches (.start settings hook) ⟨w, [], false⟩)
    (hrun : (flush (kernel depth) 0).run.run w = (o, w')) :
    ∃ u, Reaches ⟨w, [], false⟩ ⟨w', [], u⟩ := by
  have hk : (kernel depth).Sound (Reaches ⟨w, [], false⟩) :=
    Kernel.sound (.reaches (h.sane (Config.start_sane settings hook)))
      (fun _ _ _ => ⟨_, rfl, .inl rfl⟩) depth
  have hends := hk.runs_flush (g := []) (.inl trivial) (fun _ => trivial)
    (AtCode.tellsFor (g := []) trivial 0) h.has_runtime .refl
  rw [hrun] at hends
  cases o with
  | error i => exact ⟨true, hends.1⟩
  | ok outcome => exact ⟨false, hends.1⟩

/-- A flush of a program whose functions only read runs each effect once that waits for it, and no
others, in one round at most. -/
theorem Reaches.flush_runs_queue (h : Reaches (.start settings hook) ⟨w, [], false⟩)
    (hrun : (flush (kernel depth) 0).run.run w = (o, w')) (ok : w'.Observing)
    (one : w'.runtimes.size = 1) :
    ∃ stats, o = .ok (.ok stats) ∧ stats.rounds ≤ 1 ∧
      ∀ n, (w.effect? n).isSome → w'.isDisposed n = false →
        w'.startCount n = w.startCount n + if n ∈ w.queue 0 then 1 else 0 := by
  have idle := h.not_flushing 0
  have valid := h.has_runtime
  have sane := h.sane (Config.start_sane settings hook)
  have hbegin : Step ⟨w, [], false⟩ ⟨w.flushBegun 0, [.flushing 0], false⟩ :=
    .beginFlush (.inl trivial) (fun _ => trivial) valid idle (AtCode.tellsFor (g := []) trivial 0)
  have hbegun := h.tail hbegin
  have queue : (w.flushBegun 0).queue 0 = w.queue 0 := w.queue_modifyRuntime 0 0 fun _ => rfl
  -- Nobody is started but by a turn.
  obtain ⟨u, hreach⟩ := h.flushed hrun
  have only (rt : RuntimeId) (hrt : rt < w'.runtimes.size) : rt = 0 :=
    Nat.lt_one_iff.1 (one ▸ hrt)
  have upper {n : NodeId} (effect : (w.effect? n).isSome) :
      w'.startCount n + w.turnCount 0 n ≤ w.startCount n + w'.turnCount 0 n := by
    have hle := hreach.starts_le sane effect only
    simpa [ongoing] using hle
  have hw := hreach.extends
  obtain ⟨rounds, e, w₁, hrounds, hflush⟩ := exists_takeRounds_flush depth idle
  obtain ⟨rfl, rfl⟩ := Prod.mk.inj (hflush.symm.trans hrun)
  have ok₁ : w₁.Observing :=
    ok.of_extends (Step.endFlush (g := []) (u := true) (by simp)).extends
  have cap : 0 < (w.runtime 0).settings.flushCap := (ok.of_extends hw).caps 0 valid
  generalize (w.runtime 0).settings.flushCap = cap' at *
  cases hrounds with
  | done empty =>
    refine ⟨_, rfl, Nat.zero_le _, fun n effect live => ?_⟩
    rw [queue] at empty
    rw [empty, if_neg List.not_mem_nil]
    rfl
  | giveUp work => exact absurd cap (Nat.lt_irrefl 0)
  | @round left _ w₂ _ turns rounds _ work taken rest =>
    obtain ⟨inOrder, hend, -⟩ := taken.inOrder hbegun work
    have hend : Reaches (.start settings hook) ⟨w₂, [.round 0 [], .flushing 0], false⟩ := hend
    have ok₂ : w₂.Observing := ok₁.of_extends (rest.extends hend (.inr rfl))
    have emptied : w₂.queue 0 = [] := by
      rw [← (hend.composed ok₂).queues 0]
      exact (hend.served ok₂).waits 0 [] List.mem_cons_self
    cases rest with
    | giveUp work => exact absurd emptied work
    | round work => exact absurd emptied work
    | cut work => exact absurd emptied work
    | done _ =>
      refine ⟨_, rfl, Nat.le_refl 1, fun n effect live => ?_⟩
      have hround := hbegun.tail (.beginRound work)
      have hturns : (w₁.flushEnded 0).turnCount 0 n =
          w.turnCount 0 n + (turns.map Turn.effect).count n := taken.turnCount_eq hround n
      have hupper := upper effect
      have hle : w.startCount n ≤ (w₁.flushEnded 0).startCount n := hw.startCount_le n
      have order : (turns.map Turn.effect).Sublist (w.queue 0) := queue ▸ inOrder.order
      split
      · next hn =>
        have hturn := taken.mem_turns hround rfl (queue.symm ▸ hn) live
        have hlower : w.startCount n < (w₁.flushEnded 0).startCount n :=
          taken.startCount_lt hround rfl hturn
        have once : (turns.map Turn.effect).count n ≤ 1 :=
          List.nodup_iff_count_le_one.1 (order.nodup (h.queued 0).nodup) n
        omega
      · next hn =>
        have none : (turns.map Turn.effect).count n = 0 :=
          List.count_eq_zero.2 fun hm => hn (order.subset hm)
        omega
  | @cut left _ _ turns i work taken =>
    obtain ⟨-, hend, -⟩ := taken.inOrder hbegun work
    have hend : Reaches (.start settings hook) ⟨w₁, [.flushing 0], true⟩ := hend
    exact absurd (hend.aloof ok₁).1 (by simp)

/-- Effects are run precisely when they have to be. Take any state of a program whose effects and memos
only read, right after a flush, and any writes and reads at its top level after that, by which no effect
is made. However many the writes are and in whatever order, the next flush takes one round at most, and
it runs each effect that is left exactly once if one of them changed something that the latest run of the
effect had read, directly or through memos, and not at all otherwise. -/
theorem reruns_once_iff_changed (h₀ : Reaches (.start settings hook) ⟨w₀, [], false⟩)
    (ended : w₀.history = .flushEnded 0 :: past) (h : Reaches ⟨w₀, [], false⟩ ⟨w, [], false⟩)
    (hburst : w.history = burst ++ w₀.history) (plain : ∀ e ∈ burst, ¬ e.Demands)
    (unstarted : ∀ n, (w.effect? n).isSome → .started n ∉ burst)
    (hrun : (flush (kernel depth) 0).run.run w = (o, w')) (ok : w'.Observing)
    (one : w'.runtimes.size = 1) :
    ∃ stats, o = .ok (.ok stats) ∧ stats.rounds ≤ 1 ∧
      ∀ n, (w.effect? n).isSome → w'.isDisposed n = false →
        (Woken w₀.history burst n → w'.startCount n = w.startCount n + 1) ∧
        (¬ Woken w₀.history burst n → w'.startCount n = w.startCount n) := by
  have hreach := h₀.trans h
  obtain ⟨u, hflush⟩ := hreach.flushed hrun
  have hx := hflush.extends
  have size : w.runtimes.size = 1 := by
    refine Nat.le_antisymm (Nat.le_of_not_lt fun h => ?_) hreach.has_runtime
    have hlt := (hx.runtimes 1 h).1
    rw [one] at hlt
    exact Nat.lt_irrefl 1 hlt
  obtain ⟨stats, ho, hrounds, hruns⟩ := hreach.flush_runs_queue hrun ok one
  refine ⟨stats, ho, hrounds, fun n effect live => ?_⟩
  have live' : w.isDisposed n = false :=
    eq_false_of_ne_true fun hd => absurd ((hx.disposed n hd).symm.trans live) (by simp)
  have hwoken := h₀.mem_queue_iff_woken ended h hburst plain (ok.of_extends hx) size effect live'
    (unstarted n effect)
  rw [hruns n effect live]
  refine ⟨fun hw => ?_, fun hw => ?_⟩
  · rw [if_pos (hwoken.2 hw)]
  · rw [if_neg (fun hn => hw (hwoken.1 hn)), Nat.add_zero]

end Flush

def World.later (w : World) (depth : Nat) (es : List Expr) : World :=
  ((runSteps (kernel depth) es).run w).2

theorem Reaches.later {settings : Settings} {hook : Hook} {w : World}
    (h : Reaches (.start settings hook) ⟨w, [], false⟩) (depth : Nat) (es : List Expr) :
    Reaches ⟨w, [], false⟩ ⟨w.later depth es, [], false⟩ := by
  have hk : (kernel depth).Sound (Reaches ⟨w, [], false⟩) :=
    Kernel.sound (.reaches (h.sane (Config.start_sane settings hook)))
      (fun _ _ _ => ⟨_, rfl, .inl rfl⟩) depth
  exact (hk.does_runSteps h.has_runtime es .refl).1

/-- An effect reads a property through a memo, and another effect reads another property. -/
def watchingTwo : List Expr :=
  withObject [.assign "a" (.memo (readProperty "x")), .effect (.apply .readMemo [.var "a"]),
    .effect (readProperty "y"), .apply .flush []]

/-- The first property is written twice, and the memo is read in between. -/
def writingOne : List Expr :=
  [writeProperty "x" (.literal .null), .apply .readMemo [.var "a"],
    writeProperty "x" (.literal (.bool true))]

/-- The states after the program, after the writes, and after the flush that follows. -/
def atRest : World := .after .standard .manual 4 watchingTwo

def afterWriting : World := atRest.later 4 writingOne

def afterRerun : World := ((flush (kernel 4) 0).run.run afterWriting).2

def burstOfTwo : List Event :=
  [.triggered (.memo 0) .value, .triggered (.object 0) (.property "x"),
    .wrote (.property 0 "x" (some (.value .null)) (some (.bool true))), .got 0 (.value .null),
    .finished 0, .saw 0 (.property 0 "x") (.value .null), .tracked 0 (.object 0) (.property "x"),
    .started 0, .cleared 0, .triggered (.object 0) .shape, .requested 0, .queued 0 1,
    .triggered (.memo 0) .value, .triggered (.object 0) (.property "x"),
    .wrote (.property 0 "x" none (some .null))]

theorem history_atRest : atRest.history =
    [.flushEnded 0, .flushBegan 0, .finished 2, .saw 2 (.property 0 "y") .nothing,
      .tracked 2 (.object 0) (.property "y"), .started 2, .cleared 2, .cleanedUp 2, .finished 1,
      .got 0 .nothing, .saw 1 (.memo 0) .nothing, .finished 0, .saw 0 (.property 0 "x") .nothing,
      .tracked 0 (.object 0) (.property "x"), .started 0, .cleared 0, .tracked 1 (.memo 0) .value,
      .started 1, .cleared 1, .cleanedUp 1, .bound "a", .bound "o", .wrapped []] := by
  cbv

theorem history_afterWriting : afterWriting.history = burstOfTwo ++ atRest.history := by
  rw [history_atRest]
  cbv

theorem parts_afterWriting :
    (afterWriting.effect? 0).isSome = false ∧ (afterWriting.effect? 1).isSome = true ∧
      (afterWriting.effect? 2).isSome = true := by
  cbv

theorem parts_afterRerun : afterRerun.runtimes.size = 1 ∧ (afterRerun.runtime 0).hook = .manual ∧
    (afterRerun.runtime 0).settings.flushCap = 100 ∧ afterRerun.isDisposed 1 = false ∧
      afterRerun.isDisposed 2 = false ∧ observes afterRerun afterRerun.history = true := by
  cbv

theorem run_afterRerun : (flush (kernel 4) 0).run.run afterWriting =
    (((flush (kernel 4) 0).run.run afterWriting).1, afterRerun) := by
  rw [afterRerun]
  exact Prod.mk.eta.symm

/-- Both writes change the property and nothing else, but that the first one makes it. -/
theorem changed_writingOne :
    (Write.property 0 "x" none (some .null)).changed = [.property "x", .shape] ∧
      (Write.property 0 "x" (some (.value .null)) (some (.bool true))).changed = [.property "x"] := by
  cbv

theorem woken_one : Woken atRest.history burstOfTwo 1 := by
  refine ⟨.property 0 "x" none (some .null), by simp [burstOfTwo], .property "x",
    by simp [changed_writingOne], .through (m := 0) ?_ (.direct ?_)⟩ <;>
  · rw [history_atRest]
    simp [sinceStart, Write.handle]

theorem not_woken_two : ¬ Woken atRest.history burstOfTwo 2 := by
  have reads {h : Handle} {key : Key} (ht : .tracked 2 h key ∈ sinceStart 2 atRest.history) :
      h = .object 0 ∧ key = .property "y" := by
    rw [history_atRest] at ht
    simpa [sinceStart] using ht
  rintro ⟨write, hw, key, hkey, read | ⟨read, -⟩⟩
  · obtain ⟨-, rfl⟩ := reads read
    simp only [burstOfTwo, List.mem_cons, reduceCtorEq, false_or, or_false, List.not_mem_nil,
      Event.wrote.injEq] at hw
    rcases hw with rfl | rfl <;> simp [changed_writingOne] at hkey
  · cases (reads read).1

/-- The effect that reads through the memo is run once more, and the other one is not. -/
theorem reruns_once_iff_changed_writingOne :
    (∃ past, atRest.history = .flushEnded 0 :: past) ∧ afterWriting = atRest.later 4 writingOne ∧
      afterWriting.history = burstOfTwo ++ atRest.history ∧ (∀ e ∈ burstOfTwo, ¬ e.Demands) ∧
      (∀ n, (afterWriting.effect? n).isSome → .started n ∉ burstOfTwo) ∧ afterRerun.Observing ∧
      afterRerun.runtimes.size = 1 ∧ afterRerun.startCount 1 = afterWriting.startCount 1 + 1 ∧
        afterRerun.startCount 2 = afterWriting.startCount 2 := by
  have plain : ∀ e ∈ burstOfTwo, ¬ e.Demands := by simp [burstOfTwo, Event.Demands]
  have unstarted : ∀ n, (afterWriting.effect? n).isSome → .started n ∉ burstOfTwo := by
    intro n effect hm
    obtain rfl : n = 0 := by simpa [burstOfTwo] using hm
    rw [parts_afterWriting.1] at effect
    cases effect
  obtain ⟨one, hook, cap, live₁, live₂, checked⟩ := parts_afterRerun
  have ok : afterRerun.Observing := World.observing_of_observes one (by simp [hook]) (by simp [cap]) checked
  obtain ⟨-, effect₁, effect₂⟩ := parts_afterWriting
  have hreach : Reaches (.start .standard .manual) ⟨atRest, [], false⟩ :=
    reaches_after .standard .manual 4 watchingTwo
  have hburst : Reaches ⟨atRest, [], false⟩ ⟨afterWriting, [], false⟩ := hreach.later 4 writingOne
  obtain ⟨-, -, -, hruns⟩ := reruns_once_iff_changed hreach history_atRest hburst history_afterWriting
    plain unstarted run_afterRerun ok one
  exact ⟨⟨_, history_atRest⟩, rfl, history_afterWriting, plain, unstarted, ok, one,
    (hruns 1 effect₁ live₁).1 woken_one, (hruns 2 effect₂ live₂).2 not_woken_two⟩

end Reactivity
