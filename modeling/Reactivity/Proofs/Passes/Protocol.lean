import Mathlib.Data.List.Basic

/-!
How a store and its watcher deal with each other: which part of what the library has still to do
concerns them, what can become of it, and what follows for the passes of calls to the subscribers.
-/

namespace Reactivity

/-- What stands on the stack, as far as it concerns a store and its watcher. -/
inductive Seat
  /-- A flush of the runtime of the store. -/
  | flush
  /-- The effects of a round whose turn has not come yet. The watcher is so many of them. -/
  | round (turns : Nat)
  /-- The turn of the watcher has come. -/
  | turn
  /-- The watcher has been made, and is to be run for the first time. -/
  | first
  | run
  /-- The watcher has read all of the state. -/
  | read
  /-- The watcher has asked for a pass, or need not. -/
  | done
  | pass
  /-- A pass has ended, and one that was put off until then is still to be made up for. -/
  | passed
  /-- The watcher is still to be told of a change. -/
  | telling
  deriving DecidableEq

/-- What happens to a store and its watcher. -/
inductive Signal
  /-- The program has asked for a pass. -/
  | asked
  | began
  | ended
  /-- A round has taken the watcher so many times. -/
  | taken (turns : Nat)
  /-- The function of the watcher was started. -/
  | started
  | flushed
  /-- Something that the watcher has read in its latest run has changed. -/
  | noticed
  deriving DecidableEq

/-- The affairs of a store and its watcher. -/
structure Protocol where
  seats : List Seat
  /-- How many times the watcher waits for a flush. -/
  queued : Nat
  flushing : Bool
  /-- Whether the watcher is running. -/
  running : Bool
  /-- Whether the watcher has read the state before. -/
  primed : Bool
  notifying : Bool
  pending : Bool
  /-- What has happened, newest first. -/
  past : List Signal

def Seat.isOpen : Seat → Bool
  | .round _ | .turn | .pass => true
  | _ => false

/-- Whether the watcher is neither about to be run for the first time, nor has been started and has
not asked for a pass. -/
def Seat.isQuiet : Seat → Bool
  | .first | .run | .read => false
  | _ => true

def OnOpen (s : List Seat) : Prop :=
  ∀ f ∈ s.head?, f.isOpen

def OnDone (s : List Seat) : Prop :=
  ∃ k s', s = .done :: .run :: .round k :: s'

def Seat.FitsOn : Seat → List Seat → Prop
  | .flush, s | .first, s | .run, s => OnOpen s
  | .round _, s => ∃ s', s = .flush :: s'
  | .turn, s => ∃ k s', s = .round k :: s'
  | .read, s | .done, s => ∃ s', s = .run :: s'
  | .pass, s => OnOpen s ∨ OnDone s
  | .passed, s => (OnOpen s ∨ OnDone s) ∧ .pass ∉ s
  | .telling, s => OnOpen s ∨ OnDone s ∨ ∃ s', s = .telling :: s'

/-- What can happen next. -/
inductive Protocol.Move (p : Protocol) : Protocol → Prop
  | beginFlush (on : OnOpen p.seats) (idle : p.flushing = false) :
    Move p { p with seats := .flush :: p.seats, flushing := true }
  | beginRound {s : List Seat} (seats : p.seats = .flush :: s) :
    Move p { p with
      seats := .round p.queued :: .flush :: s, queued := 0, past := .taken p.queued :: p.past }
  | beginTurn {k : Nat} {s : List Seat} (seats : p.seats = .round (k + 1) :: s) :
    Move p { p with seats := .turn :: .round k :: s }
  /-- The turn of a watcher that is running is passed by. -/
  | dropTurn {s : List Seat} (seats : p.seats = .turn :: s) (busy : p.running) :
    Move p { p with seats := s }
  | takeTurn {s : List Seat} (seats : p.seats = .turn :: s) :
    Move p { p with seats := .run :: s, running := true, past := .started :: p.past }
  | endRound {s : List Seat} (seats : p.seats = .round 0 :: s) : Move p { p with seats := s }
  | endFlush {s : List Seat} (seats : p.seats = .flush :: s) (empty : p.queued = 0) :
    Move p { p with seats := s, flushing := false, past := .flushed :: p.past }
  | start {s : List Seat} (seats : p.seats = .first :: s) :
    Move p { p with seats := .run :: s, running := true, past := .started :: p.past }
  | read {s : List Seat} (seats : p.seats = .run :: s) :
    Move p { p with seats := .read :: .run :: s }
  | prime {s : List Seat} (seats : p.seats = .read :: s) (fresh : p.primed = false) :
    Move p { p with seats := .done :: s, primed := true }
  | watchPass {k : Nat} {s : List Seat} (seats : p.seats = .read :: .run :: .round k :: s)
    (primed : p.primed) (idle : p.notifying = false) :
    Move p { p with
      seats := .pass :: .done :: .run :: .round k :: s, notifying := true, past := .began :: p.past }
  | watchPostpone {s : List Seat} (seats : p.seats = .read :: s) (primed : p.primed)
    (busy : p.notifying) : Move p { p with seats := .done :: s, pending := true }
  | endRun {s : List Seat} (seats : p.seats = .done :: .run :: s) :
    Move p { p with seats := s, running := false }
  | beginPass (on : OnOpen p.seats) (idle : p.notifying = false) :
    Move p { p with
      seats := .pass :: p.seats, notifying := true, past := .began :: .asked :: p.past }
  | postpone (busy : p.notifying) : Move p { p with pending := true, past := .asked :: p.past }
  | endPass {s : List Seat} (seats : p.seats = .pass :: s) :
    Move p { p with seats := .passed :: s, notifying := false, past := .ended :: p.past }
  | settle {s : List Seat} (seats : p.seats = .passed :: s) (settled : p.pending = false) :
    Move p { p with seats := s }
  | takeUp {s : List Seat} (seats : p.seats = .passed :: s) (pending : p.pending) :
    Move p { p with seats := .telling :: s, pending := false }
  | notice : Move p { p with past := .noticed :: p.past }
  | tell (on : Seat.telling.FitsOn p.seats) :
    Move p { p with seats := .telling :: p.seats, past := .noticed :: p.past }
  | queue {s s' : List Seat} (seats : p.seats = .telling :: s) (rest : s' = s ∨ s' = .telling :: s) :
    Move p { p with seats := s', queued := max p.queued 1 }

def Seated : List Seat → Prop
  | [] => True
  | f :: s => f.FitsOn s ∧ Seated s

/-- How often the turn of the watcher is still to come in the rounds that are under way. -/
def turns : List Seat → Nat
  | [] => 0
  | .round k :: s => k + turns s
  | .turn :: s => turns s + 1
  | _ :: s => turns s

def starting : List Seat → Nat
  | .run :: _ | .read :: _ => 1
  | _ => 0

/-- Whether the watcher was taken by a round of a flush that has not ended, and was not started
since. -/
def isDue : List Signal → Bool
  | [] => false
  | .taken k :: old => k != 0 || isDue old
  | .started :: _ | .flushed :: _ => false
  | _ :: old => isDue old

section Seated

variable {s : List Seat}

theorem OnOpen.ne_cons {f : Seat} {s' : List Seat} (h : OnOpen s) (hf : f.isOpen = false) :
    s ≠ f :: s' := by
  rintro rfl
  rw [h f rfl] at hf
  cases hf

def Quiet (s : List Seat) : Prop :=
  ∀ f ∈ s.head?, f.isQuiet

theorem OnOpen.quiet (h : OnOpen s) : Quiet s := by
  intro f hf
  have := h f hf
  cases f <;> first | rfl | cases this

theorem OnDone.quiet (h : OnDone s) : Quiet s := by
  obtain ⟨k, s', rfl⟩ := h
  rintro f ⟨⟩
  rfl

theorem Quiet.starting_eq (h : Quiet s) : starting s = 0 := by
  cases s with
  | nil => rfl
  | cons f s => cases f <;> first | rfl | exact absurd (h _ rfl) Bool.false_ne_true

theorem Quiet.ne_cons {f : Seat} {s' : List Seat} (h : Quiet s) (hf : f.isQuiet = false) :
    s ≠ f :: s' := by
  rintro rfl
  rw [h f rfl] at hf
  cases hf

theorem Seat.FitsOn.quiet {f : Seat} (h : f.FitsOn s) (hr : f ≠ .read) (hd : f ≠ .done) :
    Quiet s := by
  cases f with
  | flush | first | run => exact OnOpen.quiet h
  | round k =>
    obtain ⟨s', rfl⟩ := h
    rintro f ⟨⟩
    rfl
  | turn =>
    obtain ⟨k, s', rfl⟩ := h
    rintro f ⟨⟩
    rfl
  | read => exact absurd rfl hr
  | done => exact absurd rfl hd
  | pass => exact h.elim OnOpen.quiet OnDone.quiet
  | passed => exact h.1.elim OnOpen.quiet OnDone.quiet
  | telling =>
    rcases h with ho | hd | ⟨s', rfl⟩
    · exact ho.quiet
    · exact hd.quiet
    · rintro f ⟨⟩
      rfl

/-- Only changes stand on changes that the watcher is still to be told of. -/
theorem Seated.telling_not_mem (h : Seated s) (hs : ∀ f ∈ s.head?, f ≠ .telling) : .telling ∉ s := by
  have onOpen {s : List Seat} (h : OnOpen s) : ∀ f ∈ s.head?, f ≠ .telling := by
    rintro f hf rfl
    exact absurd (h _ hf) Bool.false_ne_true
  have onDone {s : List Seat} (h : OnDone s) : ∀ f ∈ s.head?, f ≠ .telling := by
    obtain ⟨k, s', rfl⟩ := h
    rintro f ⟨⟩
    exact Seat.noConfusion
  induction s with
  | nil => exact List.not_mem_nil
  | cons f s ih =>
    obtain ⟨hf, hl⟩ := h
    refine List.not_mem_cons_of_ne_of_not_mem (hs f rfl).symm (ih hl ?_)
    cases f with
    | flush | first | run => exact onOpen hf
    | round k =>
      obtain ⟨s', rfl⟩ := hf
      rintro f ⟨⟩
      exact Seat.noConfusion
    | turn =>
      obtain ⟨k, s', rfl⟩ := hf
      rintro f ⟨⟩
      exact Seat.noConfusion
    | read | done =>
      obtain ⟨s', rfl⟩ := hf
      rintro f ⟨⟩
      exact Seat.noConfusion
    | pass => exact hf.elim onOpen onDone
    | passed => exact hf.1.elim onOpen onDone
    | telling => exact absurd rfl (hs _ rfl)

theorem Seated.flush_mem_of_turns (h : Seated s) (ht : turns s ≠ 0) : .flush ∈ s := by
  induction s with
  | nil => exact absurd rfl ht
  | cons f s ih =>
    obtain ⟨hf, hl⟩ := h
    cases f with
    | flush => exact List.mem_cons_self
    | round k =>
      obtain ⟨s', rfl⟩ := hf
      simp
    | turn =>
      obtain ⟨k, s', rfl⟩ := hf
      obtain ⟨s'', rfl⟩ := hl.1
      simp
    | _ => exact List.mem_cons_of_mem _ (ih hl ht)

/-- A watcher that is running, unless it was just started, is running in a flush. -/
theorem Seated.flush_mem_of_run (h : Seated s) (hr : .run ∈ s) :
    .flush ∈ s ∨ starting s = 1 ∨ ∃ s', s = .done :: s' := by
  have onOpen {s : List Seat} (h : OnOpen s)
      (ih : .flush ∈ s ∨ starting s = 1 ∨ ∃ s', s = .done :: s') : .flush ∈ s := by
    rcases ih with hf | hs | ⟨s', hs⟩
    · exact hf
    · rw [h.quiet.starting_eq] at hs
      cases hs
    · exact absurd hs (h.ne_cons rfl)
  have onDone {s : List Seat} (h : OnDone s) (hl : Seated s) : .flush ∈ s := by
    obtain ⟨k, s', rfl⟩ := h
    obtain ⟨-, -, ⟨s'', rfl⟩, -⟩ := hl
    simp
  induction s with
  | nil => exact absurd hr List.not_mem_nil
  | cons f s ih =>
    obtain ⟨hf, hl⟩ := h
    have later (hne : f ≠ .run) : .run ∈ s := (List.mem_cons.1 hr).resolve_left hne.symm
    cases f with
    | flush => exact .inl List.mem_cons_self
    | run | read => exact .inr (.inl rfl)
    | done => exact .inr (.inr ⟨s, rfl⟩)
    | round k =>
      obtain ⟨s', rfl⟩ := hf
      simp
    | turn =>
      obtain ⟨k, s', rfl⟩ := hf
      obtain ⟨s'', rfl⟩ := hl.1
      simp
    | first => exact .inl (List.mem_cons_of_mem _ (onOpen hf (ih hl (later Seat.noConfusion))))
    | pass =>
      refine .inl (List.mem_cons_of_mem _ (hf.elim (fun ho => onOpen ho ?_) (onDone · hl)))
      exact ih hl (later Seat.noConfusion)
    | passed =>
      refine .inl (List.mem_cons_of_mem _ (hf.1.elim (fun ho => onOpen ho ?_) (onDone · hl)))
      exact ih hl (later Seat.noConfusion)
    | telling =>
      have ih := ih hl (later Seat.noConfusion)
      refine .inl (List.mem_cons_of_mem _ ?_)
      rcases hf with ho | hd | ⟨s', rfl⟩
      · exact onOpen ho ih
      · exact onDone hd hl
      · rcases ih with hf | hs | ⟨_, hs⟩
        · exact hf
        · cases hs
        · cases hs

end Seated

namespace Protocol

/-- What holds whatever has happened. -/
structure Lawful (p : Protocol) : Prop where
  seated : Seated p.seats
  flushing : p.seats.count .flush = p.flushing.toNat
  running : p.running → .run ∈ p.seats
  notifying : p.seats.count .pass = p.notifying.toNat
  /-- Before the watcher has read the state for the first time nothing else happens. -/
  fresh : p.primed = false →
    (starting p.seats = 1 ∨ ∃ s, p.seats = .first :: s) ∧ isDue p.past = false
  first : ∀ s, p.seats = .first :: s → p.primed = false
  /-- Afterwards the watcher runs in its turns only. -/
  turn : p.primed → ∀ s, p.seats = .run :: s ∨ p.seats = .read :: .run :: s →
    ∃ k s', s = .round k :: s'
  queued : p.queued ≤ 1
  due : turns p.seats = (isDue p.past).toNat
  balanced : p.past.count .began = p.past.count .ended + p.notifying.toNat
  /-- No pass begins during another one. -/
  single : ∀ old, .began :: old <:+ p.past → old.count .began = old.count .ended
  pending : p.pending → p.notifying ∨ ∃ s, p.seats = .passed :: s
  asked : ∀ during before, p.past = during ++ .began :: before → .ended ∉ during →
    .asked ∈ during → p.pending

variable {p p' : Protocol}

theorem Lawful.turns_of_flush (hp : p.Lawful) {s : List Seat}
    (seats : p.seats = .flush :: s) : turns s = 0 := by
  have hs := hp.seated
  have hf := hp.flushing
  rw [seats] at hs hf
  by_contra ht
  have hm := List.count_pos_iff.2 (hs.2.flush_mem_of_turns ht)
  rw [List.count_cons_self] at hf
  have := Bool.toNat_le p.flushing
  omega

theorem Lawful.idle_of_turn (hp : p.Lawful) {s : List Seat}
    (seats : p.seats = .turn :: s) : p.running = false := by
  have hs := hp.seated
  have hf := hp.flushing
  have hr := hp.running
  rw [seats] at hs hf hr
  obtain ⟨⟨k, s', rfl⟩, ⟨s'', rfl⟩, hflush, hl⟩ := hs
  by_contra hrun
  have hm : .run ∈ s'' := by simpa using hr (by simpa using hrun)
  rcases hl.flush_mem_of_run hm with hm | hm | ⟨x, rfl⟩
  · have hm := List.count_pos_iff.2 hm
    simp only [List.count_cons_self, List.count_cons_of_ne, ne_eq, reduceCtorEq, not_false_eq_true]
      at hf
    have := Bool.toNat_le p.flushing
    omega
  · rw [(OnOpen.quiet hflush).starting_eq] at hm
    cases hm
  · exact OnOpen.ne_cons hflush rfl rfl

theorem Lawful.notifying_of_past (hp : p.Lawful) {during before : List Signal}
    (past : p.past = during ++ .began :: before) (ended : .ended ∉ during) : p.notifying := by
  have hb := hp.balanced
  have hs := hp.single before ⟨during, past.symm⟩
  rw [past, List.count_append, List.count_append, List.count_cons_self, List.count_eq_zero.2 ended,
    List.count_cons_of_ne (by simp)] at hb
  cases hn : p.notifying
  · rw [hn, Bool.toNat_false] at hb
    omega
  · rfl

theorem Lawful.idle_of_passed (hp : p.Lawful) {s : List Seat} (seats : p.seats = .passed :: s) :
    p.notifying = false := by
  have hs := hp.seated
  have hn := hp.notifying
  rw [seats] at hs hn
  rw [List.count_cons_of_ne (by simp), List.count_eq_zero.2 hs.1.2] at hn
  cases h : p.notifying
  · rfl
  · rw [h] at hn
    cases hn

namespace Move

theorem seated (h : p.Move p') (hp : p.Lawful) : Seated p'.seats := by
  have hs := hp.seated
  cases h with
  | beginFlush on => exact ⟨on, hs⟩
  | beginRound seats => exact ⟨⟨_, rfl⟩, seats ▸ hs⟩
  | beginTurn seats =>
    rw [seats] at hs
    exact ⟨⟨_, _, rfl⟩, hs⟩
  | dropTurn seats | endRound seats | endFlush seats | settle seats =>
    rw [seats] at hs
    exact hs.2
  | takeTurn seats =>
    rw [seats] at hs
    obtain ⟨⟨k, s', rfl⟩, hl⟩ := hs
    refine ⟨?_, hl⟩
    rintro f ⟨⟩
    rfl
  | start seats | prime seats | watchPostpone seats =>
    rw [seats] at hs
    exact hs
  | read seats => exact ⟨⟨_, rfl⟩, seats ▸ hs⟩
  | watchPass seats =>
    rw [seats] at hs
    exact ⟨.inr ⟨_, _, rfl⟩, ⟨_, rfl⟩, hs.2⟩
  | endRun seats =>
    rw [seats] at hs
    exact hs.2.2
  | beginPass on => exact ⟨.inl on, hs⟩
  | postpone | notice => exact hs
  | endPass seats =>
    have hc := hp.notifying
    rw [seats] at hs hc
    refine ⟨⟨hs.1, List.count_eq_zero.1 ?_⟩, hs.2⟩
    rw [List.count_cons_self] at hc
    have := Bool.toNat_le p.notifying
    omega
  | takeUp seats =>
    rw [seats] at hs
    exact ⟨hs.1.1.imp_right .inl, hs.2⟩
  | tell on => exact ⟨on, hs⟩
  | queue seats rest =>
    rw [seats] at hs
    rcases rest with rfl | rfl
    · exact hs.2
    · exact hs

theorem flags (h : p.Move p') (hp : p.Lawful) :
    p'.seats.count .flush = p'.flushing.toNat ∧ (p'.running → .run ∈ p'.seats) ∧
      p'.seats.count .pass = p'.notifying.toNat := by
  obtain ⟨-, hf, hr, hn, -⟩ := hp
  have hflush := Bool.toNat_le p.flushing
  have hpass := Bool.toNat_le p.notifying
  cases h with
  | beginFlush on idle | beginPass on idle => simp_all
  | postpone | notice | tell => simp_all
  | queue seats rest =>
    rw [seats] at hf hr hn
    rcases rest with rfl | rfl <;> simp_all
  | endFlush seats | endPass seats =>
    rw [seats] at hf hr hn
    simp only [List.count_cons_self] at hf hn
    simp_all
    try omega
  | _ =>
    simp_all
    try omega

/-- Nothing but its first run happens to a watcher that has never read the state. -/
theorem fresh (h : p.Move p') (hp : p.Lawful) (hf : p'.primed = false) :
    (starting p'.seats = 1 ∨ ∃ s, p'.seats = .first :: s) ∧ isDue p'.past = false := by
  have top {f : Seat} {s : List Seat} (hs : p.seats = f :: s) (hp' : p.primed = false) :
      f = .run ∨ f = .read ∨ f = .first := by
    rcases (hp.fresh hp').1 with h | ⟨s', h⟩ <;> rw [hs] at h
    · cases f <;> first | exact .inl rfl | exact .inr (.inl rfl) | cases h
    · exact .inr (.inr (List.cons.inj h).1)
  have not_open (hp' : p.primed = false) : ¬ OnOpen p.seats := by
    intro ho
    rcases (hp.fresh hp').1 with h | ⟨s, h⟩
    · rw [ho.quiet.starting_eq] at h
      cases h
    · exact ho.ne_cons rfl h
  cases h with
  | beginFlush on | beginPass on => exact absurd on (not_open hf)
  | start seats => exact ⟨.inl rfl, rfl⟩
  | read seats => exact ⟨.inl rfl, (hp.fresh hf).2⟩
  | postpone | notice => exact hp.fresh hf
  | prime => cases hf
  | watchPass _ primed | watchPostpone _ primed =>
    rw [primed] at hf
    cases hf
  | tell on =>
    rcases on with on | ⟨k, s, seats⟩ | ⟨s, seats⟩
    · exact absurd on (not_open hf)
    · exact absurd (top seats hf) (by simp)
    · exact absurd (top seats hf) (by simp)
  | beginRound seats | beginTurn seats | dropTurn seats | takeTurn seats | endRound seats
  | endFlush seats | endRun seats | endPass seats | settle seats | takeUp seats | queue seats =>
    exact absurd (top seats hf) (by simp)

theorem tops (h : p.Move p') (hp : p.Lawful) :
    (∀ s, p'.seats = .first :: s → p'.primed = false) ∧
      (p'.primed → ∀ s, p'.seats = .run :: s ∨ p'.seats = .read :: .run :: s →
        ∃ k s', s = .round k :: s') := by
  have of_quiet (hq : Quiet p'.seats) : (∀ s, p'.seats = .first :: s → p'.primed = false) ∧
      (p'.primed → ∀ s, p'.seats = .run :: s ∨ p'.seats = .read :: .run :: s →
        ∃ k s', s = .round k :: s') :=
    ⟨fun s hs => absurd hs (hq.ne_cons rfl),
      fun _ s hs => (hs.elim (hq.ne_cons rfl) (hq.ne_cons rfl)).elim⟩
  have hs := hp.seated
  cases h with
  | beginFlush | beginRound | beginTurn | watchPass | beginPass | endPass | takeUp | tell | prime
  | watchPostpone =>
    refine of_quiet ?_
    rintro f ⟨⟩
    rfl
  | takeTurn seats =>
    rw [seats] at hs
    obtain ⟨k, s', rfl⟩ := hs.1
    refine ⟨fun _ hs => (by cases hs), fun _ s hs => ?_⟩
    rcases hs with hs | hs <;> cases hs
    exact ⟨k, s', rfl⟩
  | start seats =>
    refine ⟨fun _ hs => (by cases hs), fun hprimed => ?_⟩
    rw [hp.first _ seats] at hprimed
    cases hprimed
  | @read s seats =>
    refine ⟨fun _ hs => (by cases hs), fun hprimed s' hs => ?_⟩
    rcases hs with hs | hs <;> cases hs
    exact hp.turn hprimed s (.inl seats)
  | postpone | notice => exact ⟨hp.first, hp.turn⟩
  | dropTurn seats | endRound seats | endFlush seats | settle seats =>
    rw [seats] at hs
    exact of_quiet (hs.1.quiet nofun nofun)
  | endRun seats =>
    rw [seats] at hs
    exact of_quiet (hs.2.1.quiet nofun nofun)
  | queue seats rest =>
    rw [seats] at hs
    rcases rest with rfl | rfl
    · exact of_quiet (hs.1.quiet nofun nofun)
    · refine of_quiet ?_
      rintro f ⟨⟩
      rfl

theorem queued (h : p.Move p') (hp : p.Lawful) : p'.queued ≤ 1 := by
  have hq := hp.queued
  cases h with
  | beginRound => exact Nat.zero_le 1
  | queue => exact Nat.max_le.2 ⟨hq, Nat.le_refl 1⟩
  | _ => exact hq

theorem due (h : p.Move p') (hp : p.Lawful) : turns p'.seats = (isDue p'.past).toNat := by
  have hd := hp.due
  have hle := Bool.toNat_le (isDue p.past)
  cases h with
  | beginFlush | beginPass | postpone | notice | tell => exact hd
  | @beginRound s seats =>
    have hs := hp.turns_of_flush seats
    have hq := hp.queued
    rw [seats] at hd
    simp only [turns, isDue, hs] at hd ⊢
    rcases Nat.le_one_iff_eq_zero_or_eq_one.1 hq with hq | hq <;> simp [hq, ← hd]
  | takeTurn seats =>
    rw [seats] at hd
    simp only [turns, isDue, Bool.toNat_false] at hd ⊢
    omega
  | start seats =>
    rw [seats, (hp.fresh (hp.first _ seats)).2] at hd
    exact hd
  | @endFlush s seats => exact hp.turns_of_flush seats
  | dropTurn seats busy =>
    rw [hp.idle_of_turn seats] at busy
    cases busy
  | beginTurn seats =>
    rw [seats] at hd
    simp only [turns] at hd ⊢
    omega
  | endRound seats =>
    rw [seats] at hd
    simpa only [turns, Nat.zero_add] using hd
  | queue seats rest =>
    rw [seats] at hd
    rcases rest with rfl | rfl <;> exact hd
  | read seats | prime seats | watchPass seats | watchPostpone seats | endRun seats | endPass seats
  | settle seats | takeUp seats =>
    rw [seats] at hd
    exact hd

theorem balanced (h : p.Move p') (hp : p.Lawful) :
    p'.past.count .began = p'.past.count .ended + p'.notifying.toNat ∧
      ∀ old, .began :: old <:+ p'.past → old.count .began = old.count .ended := by
  have hb := hp.balanced
  have hn := hp.notifying
  cases h with
  | watchPass _ _ idle =>
    rw [idle] at hb
    refine ⟨by simpa using hb, fun old ho => ?_⟩
    rcases List.suffix_cons_iff.1 ho with ho | ho
    · rw [(List.cons.inj ho).2]
      simpa using hb
    · exact hp.single old ho
  | beginPass _ idle =>
    rw [idle] at hb
    refine ⟨by simpa using hb, fun old ho => ?_⟩
    rcases List.suffix_cons_iff.1 ho with ho | ho
    · rw [(List.cons.inj ho).2]
      simpa using hb
    · rcases List.suffix_cons_iff.1 ho with ho | ho
      · cases ho
      · exact hp.single old ho
  | endPass seats =>
    rw [seats, List.count_cons_self] at hn
    have := Bool.toNat_le p.notifying
    refine ⟨by simp; omega, fun old ho => ?_⟩
    rcases List.suffix_cons_iff.1 ho with ho | ho
    · cases ho
    · exact hp.single old ho
  | beginRound | takeTurn | start | endFlush | postpone | notice | tell =>
    refine ⟨by simpa using hb, fun old ho => ?_⟩
    rcases List.suffix_cons_iff.1 ho with ho | ho
    · cases ho
    · exact hp.single old ho
  | _ => exact ⟨hb, hp.single⟩

theorem pending (h : p.Move p') (hp : p.Lawful) (hpending : p'.pending) :
    p'.notifying ∨ ∃ s, p'.seats = .passed :: s := by
  have top {f : Seat} {s : List Seat} (seats : p.seats = f :: s) (hf : f ≠ .passed)
      (hpending : p.pending) : p.notifying :=
    (hp.pending hpending).resolve_right fun ⟨s', hs⟩ =>
      hf (List.cons.inj (seats.symm.trans hs)).1
  have onOpen (on : OnOpen p.seats) (hpending : p.pending) : p.notifying :=
    (hp.pending hpending).resolve_right fun ⟨s', hs⟩ => on.ne_cons rfl hs
  cases h with
  | watchPass | beginPass => exact .inl rfl
  | watchPostpone _ _ busy | postpone busy => exact .inl busy
  | endPass => exact .inr ⟨_, rfl⟩
  | notice => exact hp.pending hpending
  | takeUp => cases hpending
  | settle _ settled =>
    rw [settled] at hpending
    cases hpending
  | beginFlush on => exact .inl (onOpen on hpending)
  | tell on =>
    rcases on with on | ⟨k, s, seats⟩ | ⟨s, seats⟩
    · exact .inl (onOpen on hpending)
    · exact .inl (top seats nofun hpending)
    · exact .inl (top seats nofun hpending)
  | beginRound seats | beginTurn seats | dropTurn seats | takeTurn seats | endRound seats
  | endFlush seats | start seats | read seats | prime seats | endRun seats | queue seats =>
    exact .inl (top seats nofun hpending)

theorem asked (h : p.Move p') (hp : p.Lawful) {during before : List Signal}
    (past : p'.past = during ++ .began :: before) (ended : .ended ∉ during)
    (asked : .asked ∈ during) : p'.pending := by
  -- What has happened last is neither the beginning of the pass nor what has asked for another one.
  have earlier {e : Signal} {old : List Signal} (hold : e :: old = during ++ .began :: before)
      (he : e ≠ .asked) :
      ∃ during', old = during' ++ .began :: before ∧ .ended ∉ during' ∧ .asked ∈ during' := by
    rcases List.cons_eq_append_iff.1 hold with ⟨rfl, -⟩ | ⟨during', rfl, hold'⟩
    · cases asked
    · exact ⟨during', hold', fun hm => ended (List.mem_cons_of_mem _ hm),
        (List.mem_cons.1 asked).resolve_left he.symm⟩
  cases h with
  | postpone | watchPostpone => rfl
  | takeUp seats =>
    have hidle := hp.idle_of_passed seats
    rw [hp.notifying_of_past past ended] at hidle
    cases hidle
  | beginPass _ idle =>
    obtain ⟨during', hold, hended, -⟩ := earlier past nofun
    rcases List.cons_eq_append_iff.1 hold with ⟨rfl, hold'⟩ | ⟨during'', rfl, hold'⟩
    · cases hold'
    · rw [hp.notifying_of_past hold' fun hm => hended (List.mem_cons_of_mem _ hm)] at idle
      cases idle
  | beginRound | takeTurn | endFlush | start | watchPass | endPass | notice | tell =>
    obtain ⟨during', hold, hended, hasked⟩ := earlier past nofun
    exact hp.asked during' before hold hended hasked
  | _ => exact hp.asked during before past ended asked

theorem lawful (h : p.Move p') (hp : p.Lawful) : p'.Lawful := by
  obtain ⟨flushing, running, notifying⟩ := h.flags hp
  obtain ⟨first, turn⟩ := h.tops hp
  obtain ⟨balanced, single⟩ := h.balanced hp
  exact ⟨h.seated hp, flushing, running, notifying, h.fresh hp, first, turn, h.queued hp, h.due hp,
    balanced, single, h.pending hp, fun _ _ => h.asked hp⟩

end Move

def takings : List Signal → Nat
  | [] => 0
  | .taken k :: past => k + takings past
  | _ :: past => takings past

def PassesInside (s : List Seat) : Prop :=
  ∀ s', .pass :: s' <:+ s → .flush ∈ s'

theorem PassesInside.cons {f : Seat} {s : List Seat} (h : PassesInside s) (hf : f ≠ .pass) :
    PassesInside (f :: s) := by
  intro s' hs
  rcases List.suffix_cons_iff.1 hs with hs | hs
  · exact absurd (List.cons.inj hs).1.symm hf
  · exact h s' hs

theorem PassesInside.tail {f : Seat} {s : List Seat} (h : PassesInside (f :: s)) : PassesInside s :=
  fun s' hs => h s' (hs.trans (List.suffix_cons f s))

/-- What becomes of the passes that were asked for during one. Since that has ended, a turn of the
watcher makes up for them, apart from the turns that were to come already. -/
structure MakesUp (p : Protocol) (since : List Signal) (due : Bool) : Prop where
  primed : p.primed
  passes : since.count .began + turns p.seats + starting p.seats = due.toNat + takings since
  waits : takings since = 0 →
    p.queued = 1 ∨ p.pending ∨ .telling ∈ p.seats
  taken : takings since ≠ 0 →
    takings since = 1 ∧ p.queued = 0 ∧ p.pending = false ∧ .telling ∉ p.seats
  pending : p.pending → ∃ s, p.seats = .passed :: s
  inside : PassesInside p.seats
  /-- A flush that ends leaves nothing to make up for. -/
  ended : .flushed ∈ since → since.count .began = due.toNat + 1

/-- Once a pass has ended during which another one was asked for, that is made up for, unless yet
another one is asked for or something that the watcher has read changes. -/
def Collapses (p : Protocol) : Prop :=
  ∀ since during before, p.past = since ++ .ended :: (during ++ .began :: before) →
    .ended ∉ during → .asked ∈ during → .asked ∉ since → .noticed ∉ since →
      p.MakesUp since (isDue (during ++ .began :: before))

section MakesUp

variable {since : List Signal} {due : Bool}

theorem MakesUp.reseat (h : p.MakesUp since due) (primed : p'.primed = p.primed)
    (queued : p'.queued = p.queued) (settled : p.pending = false) (settled' : p'.pending = false)
    (starts : turns p'.seats + starting p'.seats = turns p.seats + starting p.seats)
    (telling : .telling ∈ p'.seats ↔ .telling ∈ p.seats)
    (inside : PassesInside p'.seats) : p'.MakesUp since due where
  primed := primed ▸ h.primed
  passes := by
    have := h.passes
    omega
  waits ht := by
    rcases h.waits ht with hq | hp | hm
    · exact .inl (queued.trans hq)
    · rw [settled] at hp
      cases hp
    · exact .inr (.inr (telling.2 hm))
  taken ht := by
    obtain ⟨ht, hq, -, hm⟩ := h.taken ht
    exact ⟨ht, queued.trans hq, settled', fun ht => hm (telling.1 ht)⟩
  pending hp := by
    rw [settled'] at hp
    cases hp
  inside := inside
  ended := h.ended

theorem MakesUp.cons (h : p.MakesUp since due) {e : Signal} (hb : e ≠ .began)
    (ht : ∀ k, e ≠ .taken k) (hf : e = .flushed → since.count .began = due.toNat + 1) :
    p.MakesUp (e :: since) due := by
  have takings_eq : takings (e :: since) = takings since := by
    cases e <;> first | rfl | exact absurd rfl (ht _)
  obtain ⟨primed, passes, waits, taken, pending, inside, ended⟩ := h
  refine ⟨primed, ?_, ?_, ?_, pending, inside, fun hm => ?_⟩
  · rwa [List.count_cons_of_ne hb, takings_eq]
  · rwa [takings_eq]
  · rwa [takings_eq]
  · rw [List.count_cons_of_ne hb]
    exact (List.mem_cons.1 hm).elim (fun he => hf he.symm) ended

theorem MakesUp.settled (h : p.MakesUp since due) {f : Seat} {s : List Seat}
    (seats : p.seats = f :: s) (hf : f ≠ .passed) : p.pending = false := by
  by_contra hp
  obtain ⟨s', hs⟩ := h.pending (by simpa using hp)
  exact hf (List.cons.inj (seats.symm.trans hs)).1

theorem MakesUp.settled_of_onOpen (h : p.MakesUp since due) (on : OnOpen p.seats) :
    p.pending = false := by
  by_contra hp
  obtain ⟨s, hs⟩ := h.pending (by simpa using hp)
  exact on.ne_cons rfl hs

theorem MakesUp.idle (h : p.MakesUp since due) (hp : p.Lawful) {s : List Seat}
    (seats : p.seats = .read :: s) : p.notifying = false := by
  have hs := hp.seated
  have hf := hp.flushing
  have hn := hp.notifying
  have inside := h.inside
  rw [seats] at hs hf hn inside
  obtain ⟨⟨s₁, rfl⟩, -, hs⟩ := hs
  obtain ⟨k, s₂, rfl⟩ := hp.turn h.primed _ (.inr seats)
  obtain ⟨⟨s₃, rfl⟩, -, -⟩ := hs
  by_contra hbusy
  rw [Bool.not_eq_false] at hbusy
  rw [hbusy] at hn
  have hm : .pass ∈ s₃ := by
    have hpos : 0 < List.count .pass (.read :: .run :: .round k :: .flush :: s₃) := by
      rw [hn]
      exact Nat.one_pos
    simpa using List.count_pos_iff.1 hpos
  obtain ⟨above, s₄, rfl⟩ := List.append_of_mem hm
  have hflush : .flush ∈ s₄ := inside s₄ ⟨.read :: .run :: .round k :: .flush :: above, by simp⟩
  have hpos := List.count_pos_iff.2 hflush
  have hle := Bool.toNat_le p.flushing
  simp only [List.count_append, List.count_cons_self, ne_eq, reduceCtorEq, not_false_eq_true,
    List.count_cons_of_ne] at hf
  omega

/-- When nothing waits at the end of a flush, what was asked for has been made up for. -/
theorem MakesUp.count_of_flush (h : p.MakesUp since due) (hp : p.Lawful) {s : List Seat}
    (seats : p.seats = .flush :: s) (empty : p.queued = 0) :
    since.count .began = due.toNat + 1 := by
  have hset := h.settled seats nofun
  have hturns := hp.turns_of_flush seats
  have hs := hp.seated
  obtain ⟨-, passes, waits, taken, -, -, -⟩ := h
  rw [seats] at hs passes waits
  have htell : .telling ∉ .flush :: s := hs.telling_not_mem (by rintro f ⟨⟩; exact Seat.noConfusion)
  have ht : takings since ≠ 0 := fun ht => by simpa [empty, hset, htell] using waits ht
  simp only [turns, starting, hturns] at passes
  have hone := (taken ht).1
  omega

theorem MakesUp.beginRound (h : p.MakesUp since due) (hp : p.Lawful) {s : List Seat}
    (seats : p.seats = .flush :: s) : MakesUp { p with
      seats := .round p.queued :: .flush :: s, queued := 0, past := .taken p.queued :: p.past }
      (.taken p.queued :: since) due := by
  have hs := hp.seated
  have hset := h.settled seats Seat.noConfusion
  have hle := hp.queued
  obtain ⟨primed, passes, waits, taken, -, inside, ended⟩ := h
  rw [seats] at hs inside passes waits taken
  have htell : .telling ∉ .flush :: s := hs.telling_not_mem (by rintro f ⟨⟩; exact Seat.noConfusion)
  have hqueue : takings since = 0 → p.queued = 1 := fun ht => by
    simpa [hset, htell] using waits ht
  simp only [turns, starting] at passes
  refine ⟨primed, ?_, fun ht => ?_, fun ht => ?_, fun hpending => ?_, inside.cons Seat.noConfusion,
    fun hover => ?_⟩
  · simp only [turns, starting, takings, List.count_cons_of_ne, ne_eq, reduceCtorEq,
      not_false_eq_true]
    omega
  · rw [takings, Nat.add_eq_zero_iff] at ht
    exact absurd (hqueue ht.2) (by omega)
  · refine ⟨?_, rfl, hset, by simpa using htell⟩
    rw [takings]
    by_cases ht : takings since = 0
    · rw [ht, hqueue ht]
    · rw [(taken ht).1, (taken ht).2.1]
  · rw [hset] at hpending
    cases hpending
  · rw [List.count_cons_of_ne Signal.noConfusion]
    exact ended ((List.mem_cons.1 hover).resolve_left nofun)

theorem MakesUp.watchPass (h : p.MakesUp since due) (hp : p.Lawful) {k : Nat} {s : List Seat}
    (seats : p.seats = .read :: .run :: .round k :: s) : MakesUp { p with
      seats := .pass :: .done :: .run :: .round k :: s, notifying := true, past := .began :: p.past }
      (.began :: since) due := by
  have hs := hp.seated
  have hset := h.settled seats Seat.noConfusion
  obtain ⟨primed, passes, waits, taken, -, inside, ended⟩ := h
  rw [seats] at hs passes waits taken inside
  obtain ⟨-, -, ⟨s', rfl⟩, -⟩ := hs
  refine ⟨primed, ?_, fun ht => ?_, fun ht => ?_, fun hpending => ?_, fun x hx => ?_,
    fun hover => ?_⟩
  · simp only [turns, starting, takings, List.count_cons_self] at passes ⊢
    omega
  · simpa using waits ht
  · obtain ⟨ht, hq, -, hm⟩ := taken ht
    exact ⟨ht, hq, hset, by simpa using hm⟩
  · rw [hset] at hpending
    cases hpending
  · rcases List.suffix_cons_iff.1 hx with hx | hx
    · rw [(List.cons.inj hx).2]
      simp
    · exact inside.tail.cons (f := .done) Seat.noConfusion x hx
  -- The watcher is not started any more.
  · have hcount := ended ((List.mem_cons.1 hover).resolve_left nofun)
    have hone : takings since ≤ 1 := by
      by_cases ht : takings since = 0
      · omega
      · exact Nat.le_of_eq (taken ht).1
    simp only [turns, starting] at passes
    omega

theorem MakesUp.takeUp (h : p.MakesUp since due) {s : List Seat} (seats : p.seats = .passed :: s)
    (pending : p.pending) :
    MakesUp { p with seats := .telling :: s, pending := false } since due := by
  obtain ⟨primed, passes, -, taken, -, inside, ended⟩ := h
  rw [seats] at passes inside
  refine ⟨primed, passes, fun _ => .inr (.inr List.mem_cons_self), fun ht => ?_, nofun,
    inside.tail.cons Seat.noConfusion, ended⟩
  obtain ⟨-, -, hset, -⟩ := taken ht
  rw [pending] at hset
  cases hset

theorem MakesUp.queue (h : p.MakesUp since due) (hp : p.Lawful) {s s' : List Seat}
    (seats : p.seats = .telling :: s) (rest : s' = s ∨ s' = .telling :: s) :
    MakesUp { p with seats := s', queued := max p.queued 1 } since due := by
  have hs := hp.seated
  have hset := h.settled seats Seat.noConfusion
  have hmax : max p.queued 1 = 1 := Nat.max_eq_right hp.queued
  obtain ⟨primed, passes, -, taken, -, inside, ended⟩ := h
  rw [seats] at hs passes taken inside
  refine ⟨primed, ?_, fun _ => .inl hmax, fun ht => ?_, fun hpending => ?_, ?_, ended⟩
  · rcases rest with rfl | rfl
    · rw [(hs.1.quiet Seat.noConfusion Seat.noConfusion).starting_eq]
      exact passes
    · exact passes
  · exact absurd List.mem_cons_self (taken ht).2.2.2
  · rw [hset] at hpending
    cases hpending
  · rcases rest with rfl | rfl
    · exact inside.tail
    · exact inside

end MakesUp

namespace Collapses

theorem same (h : p.Collapses) (past : p'.past = p.past)
    (moved : ∀ since due, p.MakesUp since due → p'.MakesUp since due) : p'.Collapses :=
  fun since during before hp hended hasked hs hn =>
    moved _ _ (h since during before (past ▸ hp) hended hasked hs hn)

theorem cons (h : p.Collapses) {e : Signal} (past : p'.past = e :: p.past) (he : e ≠ .ended)
    (moved : ∀ since due, e ≠ .asked → e ≠ .noticed → p.MakesUp since due →
      p'.MakesUp (e :: since) due) : p'.Collapses := by
  intro since during before hp hended hasked hs hn
  rw [past] at hp
  rcases List.cons_eq_append_iff.1 hp with ⟨rfl, hold⟩ | ⟨since', rfl, hold⟩
  · exact absurd (List.cons.inj hold).1.symm he
  · rw [List.mem_cons, not_or] at hs hn
    exact moved _ _ (Ne.symm hs.1) (Ne.symm hn.1) (h since' during before hold hended hasked hs.2 hn.2)

end Collapses

theorem Lawful.makesUp_nil (hp : p.Lawful) {s : List Seat} (seats : p.seats = .pass :: s)
    {during before : List Signal} (past : p.past = during ++ .began :: before)
    (ended : .ended ∉ during) (asked : .asked ∈ during) :
    Protocol.MakesUp { p with
      seats := .passed :: s, notifying := false, past := .ended :: p.past } []
      (isDue (during ++ .began :: before)) where
  primed := by
    by_contra hf
    rcases (hp.fresh (by simpa using hf)).1 with h | ⟨s', h⟩ <;> rw [seats] at h <;> cases h
  passes := by
    have hd := hp.due
    rw [seats, past] at hd
    simpa only [turns, starting, takings, List.count_nil, Nat.zero_add, Nat.add_zero] using hd
  waits _ := .inr (.inl (hp.asked during before past ended asked))
  taken h := absurd rfl h
  pending _ := ⟨s, rfl⟩
  inside := by
    have hn := hp.notifying
    have hle := Bool.toNat_le p.notifying
    rw [seats, List.count_cons_self] at hn
    intro s' hs
    have hm : .pass ∈ s := (List.mem_cons.1 (hs.subset List.mem_cons_self)).resolve_left nofun
    have hpos := List.count_pos_iff.2 hm
    omega
  ended := nofun

theorem Collapses.endPass (hc : p.Collapses) (hp : p.Lawful) {s : List Seat}
    (seats : p.seats = .pass :: s) : Collapses { p with
      seats := .passed :: s, notifying := false, past := .ended :: p.past } := by
  intro since during before past ended asked hs hn
  rcases List.cons_eq_append_iff.1 past with ⟨rfl, hold⟩ | ⟨since', rfl, hold⟩
  · exact hp.makesUp_nil seats (List.cons.inj hold).2.symm ended asked
  · rw [List.mem_cons, not_or] at hs hn
    have hm := hc since' during before hold ended asked hs.2 hn.2
    have hset := hm.settled seats Seat.noConfusion
    have inside := hm.inside
    rw [seats] at inside
    refine .cons ?_ nofun nofun nofun
    refine hm.reseat rfl rfl hset hset ?_ ?_ (inside.tail.cons Seat.noConfusion)
    · rw [seats]
      rfl
    · simp [seats]

/-- Nothing is asked for, so that no pass begins but for a turn of the watcher. -/
theorem Collapses.beginPass : Collapses { p with
    seats := .pass :: p.seats, notifying := true, past := .began :: .asked :: p.past } := by
  intro since during before past ended asked hs hn
  rcases List.cons_eq_append_iff.1 past with ⟨rfl, hold⟩ | ⟨since', rfl, hold⟩
  · cases hold
  · rcases List.cons_eq_append_iff.1 hold with ⟨rfl, hold'⟩ | ⟨since'', rfl, hold'⟩
    · cases hold'
    · simp at hs

theorem Move.collapses (h : p.Move p') (hp : p.Lawful) (hc : p.Collapses) : p'.Collapses := by
  have hs := hp.seated
  cases h with
  | beginFlush on =>
    refine hc.same rfl fun since due hm => ?_
    have hset := hm.settled_of_onOpen on
    refine hm.reseat rfl rfl hset hset ?_ (by simp) (hm.inside.cons Seat.noConfusion)
    rw [on.quiet.starting_eq]
    rfl
  | beginRound seats =>
    exact hc.cons rfl Signal.noConfusion fun since due _ _ hm => hm.beginRound hp seats
  | beginTurn seats =>
    refine hc.same rfl fun since due hm => ?_
    have hset := hm.settled seats Seat.noConfusion
    have inside := hm.inside
    rw [seats] at inside
    refine hm.reseat rfl rfl hset hset ?_ (by simp [seats])
      ((inside.tail.cons (f := .round _) Seat.noConfusion).cons Seat.noConfusion)
    rw [seats]
    simp only [turns, starting]
    omega
  | dropTurn seats busy =>
    rw [hp.idle_of_turn seats] at busy
    cases busy
  | takeTurn seats =>
    refine hc.cons rfl Signal.noConfusion fun since due _ _ hm => ?_
    have hset := hm.settled seats Seat.noConfusion
    have inside := hm.inside
    rw [seats] at inside
    refine .cons ?_ nofun nofun nofun
    refine hm.reseat rfl rfl hset hset ?_ (by simp [seats]) (inside.tail.cons Seat.noConfusion)
    rw [seats]
    rfl
  | endRound seats =>
    refine hc.same rfl fun since due hm => ?_
    have hset := hm.settled seats Seat.noConfusion
    have inside := hm.inside
    rw [seats] at hs inside
    refine hm.reseat rfl rfl hset hset ?_ (by simp [seats]) inside.tail
    rw [seats, (hs.1.quiet Seat.noConfusion Seat.noConfusion).starting_eq]
    simp only [turns, starting, Nat.zero_add]
  | endFlush seats empty =>
    refine hc.cons rfl Signal.noConfusion fun since due _ _ hm => ?_
    have hset := hm.settled seats Seat.noConfusion
    have inside := hm.inside
    have hcount := hm.count_of_flush hp seats empty
    rw [seats] at hs inside
    refine .cons ?_ nofun nofun fun _ => hcount
    refine hm.reseat rfl rfl hset hset ?_ (by simp [seats]) inside.tail
    rw [seats, (hs.1.quiet Seat.noConfusion Seat.noConfusion).starting_eq]
    rfl
  | start seats =>
    refine hc.cons rfl Signal.noConfusion fun since due _ _ hm => ?_
    have hprimed := hm.primed
    rw [hp.first _ seats] at hprimed
    cases hprimed
  | read seats =>
    refine hc.same rfl fun since due hm => ?_
    have hset := hm.settled seats Seat.noConfusion
    have inside := hm.inside
    rw [seats] at inside
    refine hm.reseat rfl rfl hset hset ?_ (by simp [seats]) (inside.cons Seat.noConfusion)
    rw [seats]
    rfl
  | prime seats fresh =>
    refine hc.same rfl fun since due hm => ?_
    have hprimed := hm.primed
    rw [fresh] at hprimed
    cases hprimed
  | watchPass seats _ _ =>
    exact hc.cons rfl Signal.noConfusion fun since due _ _ hm => hm.watchPass hp seats
  | watchPostpone seats _ busy =>
    refine hc.same rfl fun since due hm => ?_
    rw [hm.idle hp seats] at busy
    cases busy
  | endRun seats =>
    refine hc.same rfl fun since due hm => ?_
    have hset := hm.settled seats Seat.noConfusion
    have inside := hm.inside
    rw [seats] at hs inside
    refine hm.reseat rfl rfl hset hset ?_ (by simp [seats]) inside.tail.tail
    rw [seats, (hs.2.1.quiet Seat.noConfusion Seat.noConfusion).starting_eq]
    rfl
  | beginPass => exact .beginPass
  | postpone => exact hc.cons rfl Signal.noConfusion fun _ _ ha => absurd rfl ha
  | endPass seats => exact hc.endPass hp seats
  | settle seats settled =>
    refine hc.same rfl fun since due hm => ?_
    have inside := hm.inside
    rw [seats] at hs inside
    refine hm.reseat rfl rfl settled settled ?_ (by simp [seats]) inside.tail
    rw [seats, (hs.1.quiet Seat.noConfusion Seat.noConfusion).starting_eq]
    rfl
  | takeUp seats pending => exact hc.same rfl fun since due hm => hm.takeUp seats pending
  | notice | tell => exact hc.cons rfl Signal.noConfusion fun _ _ _ hn => absurd rfl hn
  | queue seats rest => exact hc.same rfl fun since due hm => hm.queue hp seats rest

/-- While the program's own code runs, be it the watcher that reads, the watcher waits for a flush
until a round takes it, and there are no more passes than turns that it has had. Once a flush has
ended there is nothing left to make up for. -/
theorem MakesUp.atCode {since : List Signal} {due : Bool} (h : p.MakesUp since due) (hp : p.Lawful)
    (on : ∀ f ∈ p.seats.head?, f.isOpen ∨ f = .run) :
    (takings since = 0 → p.queued = 1) ∧ since.count .began ≤ due.toNat + 1 ∧
      (.flushed ∈ since → since.count .began = due.toNat + 1) := by
  have top {f : Seat} {s : List Seat} (seats : p.seats = f :: s) : f.isOpen ∨ f = .run :=
    on f (seats ▸ rfl)
  have hset : p.pending = false := by
    by_contra hpending
    obtain ⟨s, seats⟩ := h.pending (by simpa using hpending)
    rcases top seats with hf | hf <;> cases hf
  have htell : .telling ∉ p.seats := hp.seated.telling_not_mem fun f hf he => by
    subst he
    rcases on _ hf with hf | hf <;> cases hf
  refine ⟨fun ht => by simpa [hset, htell] using h.waits ht, ?_, h.ended⟩
  have passes := h.passes
  by_cases ht : takings since = 0
  · omega
  · have hone := (h.taken ht).1
    omega

theorem Lawful.new {s : List Seat} (seats : p.seats = .first :: s) (hs : Seated s) (on : OnOpen s)
    (flushing : s.count .flush = p.flushing.toNat) (ht : turns s = 0) (hpass : .pass ∉ s)
    (running : p.running = false) (primed : p.primed = false) (notifying : p.notifying = false)
    (pending : p.pending = false) (queued : p.queued = 0) (due : isDue p.past = false)
    (past : ∀ e ∈ p.past, e ≠ .began ∧ e ≠ .ended) : p.Lawful where
  seated := seats ▸ ⟨on, hs⟩
  flushing := by rw [seats, List.count_cons_of_ne Seat.noConfusion, flushing]
  running h := by
    rw [running] at h
    cases h
  notifying := by
    rw [seats, List.count_cons_of_ne Seat.noConfusion, notifying, List.count_eq_zero.2 hpass]
    rfl
  fresh _ := ⟨.inr ⟨s, seats⟩, due⟩
  first _ _ := primed
  turn h := by
    rw [primed] at h
    cases h
  queued := queued ▸ Nat.zero_le 1
  due := by
    rw [seats, due]
    exact ht
  balanced := by
    rw [List.count_eq_zero.2 fun hm => (past _ hm).1 rfl,
      List.count_eq_zero.2 fun hm => (past _ hm).2 rfl, notifying]
    rfl
  single old ho := absurd rfl (past _ (ho.subset List.mem_cons_self)).1
  pending h := by
    rw [pending] at h
    cases h
  asked during before hp := absurd rfl (past .began (by simp [hp])).1

theorem Collapses.new (past : ∀ e ∈ p.past, e ≠ .began ∧ e ≠ .ended) : p.Collapses :=
  fun _ _ _ hp => absurd rfl (past .ended (by simp [hp])).2

end Protocol

end Reactivity
