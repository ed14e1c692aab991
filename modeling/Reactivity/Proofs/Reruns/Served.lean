import Reactivity.Proofs.Reruns.Works

namespace Reactivity

theorem mem_sinceStart_cases {n : NodeId} {e : Event} {new old : List Event}
    (h : e ∈ sinceStart n (new ++ old)) :
    e ∈ sinceStart n new ∨ .started n ∉ new ∧ e ∈ sinceStart n old := by
  induction new with
  | nil => exact .inr ⟨List.not_mem_nil, h⟩
  | cons x new ih =>
    rw [List.cons_append] at h
    by_cases hx : x = .started n
    · rw [hx, sinceStart_started] at h
      cases h
    · rw [sinceStart_cons hx] at h ⊢
      rcases List.mem_cons.1 h with rfl | h
      · exact .inl List.mem_cons_self
      · refine (ih h).imp (List.mem_cons_of_mem _) fun ⟨hs, he⟩ => ⟨?_, he⟩
        rw [List.mem_cons, not_or]
        exact ⟨Ne.symm hx, hs⟩

theorem mem_due_of_append {rt : RuntimeId} {n : NodeId} {new old : List Event}
    (hs : ∀ e ∈ new, ¬ e.Schedules) (h : n ∈ due rt (new ++ old)) :
    n ∈ due rt old ∧ .started n ∉ new := by
  induction new with
  | nil => exact ⟨h, List.not_mem_nil⟩
  | cons e new ih =>
    rw [List.forall_mem_cons] at hs
    have further (he : e ≠ .started n) (h : n ∈ due rt (new ++ old)) :
        n ∈ due rt old ∧ .started n ∉ e :: new := by
      obtain ⟨hd, hn⟩ := ih hs.2 h
      rw [List.mem_cons, not_or]
      exact ⟨hd, he.symm, hn⟩
    cases e with
    | started m =>
      obtain ⟨h, hm⟩ := List.mem_filter.1 h
      refine further (fun he => ?_) h
      rw [Event.started.inj he] at hm
      simp at hm
    | queued rt' m => exact absurd trivial hs.1
    | roundBegan rt' batch => exact absurd trivial hs.1
    | gaveUp rt' => exact absurd trivial hs.1
    | flushEnded rt' => exact absurd trivial hs.1
    | _ => exact further nofun h

theorem Event.Stirs.of_schedules {e : Event} (h : e.Schedules) : e.Stirs := by
  cases e <;> first | exact h.elim | trivial

section Work

variable {f x : Frame} {g g' : List Frame}

theorem mem_of_work (h : work g' = work g) (hf : f.works) : f ∈ g' ↔ f ∈ g := by
  rw [← mem_work hf, h, mem_work hf]

theorem mem_of_work_cons (h : work g' = x :: work g) (hf : f.works) : f ∈ g' ↔ f = x ∨ f ∈ g := by
  rw [← mem_work hf, h, List.mem_cons, mem_work hf]

end Work

/-- The turn of an effect has come in a round of a flush, or is to come. -/
def Awaits (fs : List Frame) (rt : RuntimeId) (n : NodeId) : Prop :=
  .pending n ∈ fs ∨ ∃ batch, .round rt batch ∈ fs ∧ n ∈ batch

/-- Nobody waits while a round is under way; no flush was given up; who is due is to be run or was
disposed of, and was when a flush ended; and whoever was taken from everything was disposed of. -/
structure Served (w : World) (fs : List Frame) : Prop where
  waits : ∀ rt batch, .round rt batch ∈ fs → waiting rt w.history = []
  kept : ∀ rt, .gaveUp rt ∉ w.history
  due : ∀ rt, ∀ n ∈ due rt w.history, w.isDisposed n ∨ Awaits fs rt n
  ended : ∀ rt old, .flushEnded rt :: old <:+ w.history →
    waiting rt old = [] ∧ ∀ n ∈ Reactivity.due rt old, w.isDisposed n
  cleared : ∀ n, w.memo? n = none → .cleared n ∈ sinceStart n w.history → w.isDisposed n

namespace Served

variable {w w' : World} {g g' : List Frame}

theorem go (h : Served w g) (hx : w.Extends w') {l : List Event}
    (past : w'.history = l ++ w.history) (still : ∀ e ∈ l, ¬ e.Schedules)
    (cleared : ∀ n, .cleared n ∈ sinceStart n l → w'.memo? n = none → w'.isDisposed n)
    (rounds : ∀ rt batch, .round rt batch ∈ g' → ∃ batch', .round rt batch' ∈ g)
    (awaits : ∀ rt n, .started n ∉ l → Awaits g rt n → w'.isDisposed n ∨ Awaits g' rt n) :
    Served w' g' where
  waits rt batch hr := by
    obtain ⟨batch', hr⟩ := rounds rt batch hr
    rw [past, waiting_append still, h.waits rt batch' hr]
  kept rt hm := by
    rw [past] at hm
    exact (List.mem_append.1 hm).elim (fun hm => still _ hm trivial) (h.kept rt)
  due rt n hn := by
    rw [past] at hn
    obtain ⟨hn, hs⟩ := mem_due_of_append still hn
    exact (h.due rt n hn).elim (fun hd => .inl (hx.disposed n hd)) (awaits rt n hs)
  ended rt old ho := by
    rw [past] at ho
    have ho := suffix_of_append ho fun hm => still _ hm trivial
    obtain ⟨hw, hd⟩ := h.ended rt old ho
    exact ⟨hw, fun n hn => hx.disposed n (hd n hn)⟩
  cleared n hn hc := by
    rw [past] at hc
    rcases mem_sinceStart_cases hc with hc | ⟨-, hc⟩
    · exact cleared n hc hn
    · exact hx.disposed n (h.cleared n (Config.memo?_eq_none hx hn) hc)

theorem rest (h : Served w g) (hx : w.Extends w') {l : List Event}
    (past : w'.history = l ++ w.history) (still : ∀ e ∈ l, ¬ e.Schedules)
    (cleared : ∀ n, .cleared n ∉ l)
    (rounds : ∀ rt batch, .round rt batch ∈ g' → ∃ batch', .round rt batch' ∈ g)
    (awaits : ∀ rt n, Awaits g rt n → w'.isDisposed n ∨ Awaits g' rt n) : Served w' g' :=
  h.go hx past still (fun n hc _ => absurd ((List.takeWhile_sublist _).subset hc) (cleared n)) rounds
    fun rt n _ => awaits rt n

/-- The same where the stack is the same, as far as flushes are concerned. -/
theorem same (h : Served w g) (hx : w.Extends w') {l : List Event}
    (past : w'.history = l ++ w.history) (still : ∀ e ∈ l, ¬ e.Schedules)
    (cleared : ∀ n, .cleared n ∉ l) (rounds : ∀ rt batch, .round rt batch ∈ g' ↔ .round rt batch ∈ g)
    (pending : ∀ n, .pending n ∈ g' ↔ .pending n ∈ g) : Served w' g' := by
  refine h.rest hx past still cleared (fun rt batch hr => ⟨batch, (rounds rt batch).1 hr⟩)
    fun rt n ha => .inr ?_
  simpa only [Awaits, rounds, pending] using ha

theorem queued (h : Served w g) (hx : w.Extends w') {rt : RuntimeId} {n : NodeId}
    (past : w'.history = .queued rt n :: w.history ∨
      w'.history = .requested rt :: .queued rt n :: w.history)
    (rounds : ∀ rt batch, .round rt batch ∉ g) (idle : ∀ rt batch, .round rt batch ∉ g')
    (pending : ∀ n, .pending n ∈ g → .pending n ∈ g') : Served w' g' := by
  obtain ⟨new, past, hnew⟩ : ∃ new, w'.history = new ++ w.history ∧
      ∀ e ∈ new, e = .queued rt n ∨ e = .requested rt := by
    rcases past with past | past
    · exact ⟨[_], past, by simp⟩
    · exact ⟨[_, _], past, by simp⟩
  have other {e : Event} (hq : e ≠ .queued rt n) (hr : e ≠ .requested rt) : e ∉ new :=
    fun hm => (hnew e hm).elim hq hr
  have due_eq (rt' : RuntimeId) : Reactivity.due rt' w'.history = Reactivity.due rt' w.history := by
    rw [past]
    clear past other
    induction new with
    | nil => rfl
    | cons e new ih =>
      rw [List.forall_mem_cons] at hnew
      rcases hnew.1 with rfl | rfl <;> exact ih hnew.2
  refine ⟨fun rt' batch hr => absurd hr (idle rt' batch), fun rt' hm => ?_, fun rt' n' hn => ?_,
    fun rt' old ho => ?_, fun n' hn hc => ?_⟩
  · rw [past] at hm
    exact (List.mem_append.1 hm).elim (other (by simp) (by simp)) (h.kept rt')
  · rw [due_eq] at hn
    rcases h.due rt' n' hn with hd | hp | ⟨batch, hr, -⟩
    · exact .inl (hx.disposed n' hd)
    · exact .inr (.inl (pending n' hp))
    · exact absurd hr (rounds rt' batch)
  · rw [past] at ho
    obtain ⟨hw, hd⟩ := h.ended rt' old (suffix_of_append ho (other (by simp) (by simp)))
    exact ⟨hw, fun n hn => hx.disposed n (hd n hn)⟩
  · rw [past] at hc
    have hc := mem_sinceStart_of_append hc (other (by simp) (by simp))
    exact hx.disposed n' (h.cleared n' (Config.memo?_eq_none hx hn) hc)

theorem beginRound {rt : RuntimeId} (h : Served w (.flushing rt :: g))
    (rounds : ∀ rt batch, .round rt batch ∉ g) :
    Served (w.roundBegun rt) (.round rt (w.queue rt) :: .flushing rt :: g) where
  waits rt' batch hr := by
    rcases List.mem_cons.1 hr with he | hr
    · obtain ⟨rfl, -⟩ := Frame.round.inj he
      exact if_pos rfl
    · exact absurd ((List.mem_cons.1 hr).resolve_left nofun) (rounds rt' batch)
  kept rt' hm := (List.mem_cons.1 hm).elim nofun (h.kept rt')
  due rt' n hn := by
    have old (hn : n ∈ Reactivity.due rt' w.history) :
        w.isDisposed n ∨ Awaits (.round rt (w.queue rt) :: .flushing rt :: g) rt' n := by
      refine (h.due rt' n hn).imp_right fun ha => ha.imp (List.mem_cons_of_mem _) ?_
      exact fun ⟨batch, hr, hn⟩ => ⟨batch, List.mem_cons_of_mem _ hr, hn⟩
    change n ∈ (if rt = rt' then w.queue rt ++ Reactivity.due rt' w.history else _) at hn
    split at hn
    · next hrt =>
      subst hrt
      rcases List.mem_append.1 hn with hn | hn
      · exact .inr (.inr ⟨_, List.mem_cons_self, hn⟩)
      · exact old hn
    · exact old hn
  ended rt' old ho := h.ended rt' old ((List.suffix_cons_iff.1 ho).resolve_left nofun)
  cleared n hn hc := by
    change _ ∈ sinceStart n (_ :: w.history) at hc
    rw [sinceStart_cons (by simp)] at hc
    exact h.cleared n hn ((List.mem_cons.1 hc).resolve_left nofun)

theorem endFlush {rt : RuntimeId} (h : Served w (.flushing rt :: g)) (done : waiting rt w.history = [])
    (idle : ∀ rt n, ¬ Awaits g rt n) : Served (w.flushEnded rt) g where
  waits rt' batch hr := h.waits rt' batch (List.mem_cons_of_mem _ hr)
  kept rt' hm := (List.mem_cons.1 hm).elim nofun (h.kept rt')
  due rt' n hn := by
    change n ∈ (if rt = rt' then [] else Reactivity.due rt' w.history) at hn
    split at hn
    · cases hn
    · refine (h.due rt' n hn).imp_right fun ha => ?_
      simpa [Awaits] using ha
  ended rt' old ho := by
    rcases List.suffix_cons_iff.1 ho with he | ho
    · obtain ⟨hrt, rfl⟩ := List.cons.inj he
      obtain rfl := Event.flushEnded.inj hrt
      refine ⟨done, fun n hn => (h.due _ n hn).resolve_right fun ha => idle rt' n ?_⟩
      simpa [Awaits] using ha
    · exact h.ended rt' old ho
  cleared n hn hc := by
    change _ ∈ sinceStart n (_ :: w.history) at hc
    rw [sinceStart_cons (by simp)] at hc
    exact h.cleared n hn ((List.mem_cons.1 hc).resolve_left (by simp))

end Served

/-- Where no function is running but on a flush, no turn has come in a round. -/
theorem Standing.not_awaits {w : World} {g : List Frame} (h : Standing w g)
    (flushing : ∀ rt, .flushing rt ∉ g) (rt : RuntimeId) (n : NodeId) : ¬ Awaits g rt n := by
  rintro (hp | ⟨batch, hr, -⟩)
  · obtain ⟨rt', hf⟩ := h.exists_flushing hp (.inl ⟨n, rfl⟩)
    exact flushing rt' hf
  · obtain ⟨rt', hf⟩ := h.exists_flushing hr (.inr ⟨rt, batch, rfl⟩)
    exact flushing rt' hf

/-- What is known of a state of a program whose functions only read. -/
structure Config.Composed (c : Config) : Prop where
  standing : Standing c.world c.stack
  valid : ∀ f ∈ c.stack, f.Valid c.world
  plain : ∀ f ∈ c.stack, f.isCalling = false
  aloof : Aloof c.stack
  hooks : c.world.Unhurried
  caps : ∀ rt, rt < c.world.runtimes.size → 0 < (c.world.runtime rt).settings.flushCap
  queues : ∀ rt, waiting rt c.world.history = c.world.queue rt
  active : ∀ n, c.world.isRunning n → n ∈ actives c.stack

namespace Config.Composed

variable {w : World} {g : List Frame} {rt : RuntimeId}

/-- No flush is under way where no function is running and something else than a flush is on top. -/
theorem not_mem_flushing (h : Composed ⟨w, g, false⟩) (idle : actives g = [])
    (top : ∀ f ∈ g.head?, ¬ f.IsIdle) (rt : RuntimeId) : .flushing rt ∉ g :=
  fun hf => h.standing.actives_ne_nil h.plain hf top idle

theorem not_mem_flushing_below (h : Composed ⟨w, .flushing rt :: g, false⟩) (rt' : RuntimeId) :
    .flushing rt' ∉ g :=
  h.aloof.not_mem_flushing h.standing (fun f hf => h.plain f (List.mem_cons_of_mem _ hf)) h.hooks
    (h.valid _ List.mem_cons_self) rt'

theorem not_isRunning_of_pending {n m : NodeId} (h : Composed ⟨w, .pending n :: g, false⟩) :
    ¬ w.isRunning m := by
  intro hm
  have hs := h.standing
  obtain ⟨⟨rt, batch, g', rfl⟩, ⟨g'', rfl⟩, -⟩ := hs
  have hactive : m ∈ actives g'' := h.active m hm
  rw [h.aloof.1] at hactive
  cases hactive

end Config.Composed

theorem Works.served {w w' : World} {g g' : List Frame} (h : Works ⟨w, g, false⟩ ⟨w', g', false⟩)
    (hx : w.Extends w') (hc : Config.Composed ⟨w, g, false⟩)
    (idle : ∀ {e}, e.IsDeed → e :: w.history <:+ w'.history → actives g = []) (hs : Served w g) :
    Served w' g' := by
  have calm {new : List Event} (h : ∀ e ∈ new, ¬ e.Stirs) : ∀ e ∈ new, ¬ e.Schedules :=
    fun e he hs => h e he (.of_schedules hs)
  have none {new : List Event} (h : ∀ e ∈ new, ¬ e.Stirs) (n : NodeId) : .cleared n ∉ new :=
    fun hm => h _ hm trivial
  cases h with
  | rest past frames =>
    obtain ⟨new, past, hnew⟩ := past
    exact hs.same hx past (calm hnew) (none hnew) (fun rt batch => mem_of_work frames rfl)
      fun n => mem_of_work frames rfl
  | @ended _ _ _ _ f past done frames =>
    obtain ⟨new, past, hnew⟩ := past
    have below {x : Frame} (hx : x.works) : x ∈ g ↔ x = f ∨ x ∈ g' := mem_of_work_cons frames hx
    refine hs.rest hx past (calm hnew) (none hnew) (fun rt batch hr => ⟨batch, ?_⟩) ?_
    · exact (below rfl).2 (.inr hr)
    · rintro rt n (hp | ⟨batch, hr, hn⟩)
      · rcases (below rfl).1 hp with rfl | hp
        · exact .inl (hx.disposed n done)
        · exact .inr (.inl hp)
      · rcases (below rfl).1 hr with rfl | hr
        · obtain _ | ⟨m, batch⟩ := batch
          · cases hn
          · exact done.elim
        · exact .inr (.inr ⟨batch, hr, hn⟩)
  | @track _ _ _ _ n h key active past frames =>
    obtain ⟨new, past, hnew⟩ := past
    rw [List.append_cons] at past
    refine hs.same hx past (fun e he => ?_) (fun n hm => ?_) (fun rt batch => mem_of_work frames rfl)
      fun n => mem_of_work frames rfl
    · rcases List.mem_append.1 he with he | he
      · exact calm hnew e he
      · rw [List.mem_singleton.1 he]
        exact id
    · exact (List.mem_append.1 hm).elim (none hnew n) (by simp)
  | @compute _ _ _ _ n m rt start old code memo stale past tracked frames =>
    have rounds (rt : RuntimeId) (batch : List NodeId) : .round rt batch ∈ g' ↔ .round rt batch ∈ g :=
      (mem_of_work_cons frames rfl).trans (or_iff_right (by simp))
    have pending (n : NodeId) : .pending n ∈ g' ↔ .pending n ∈ g :=
      (mem_of_work_cons frames rfl).trans (or_iff_right (by simp))
    -- The memo may have been read by a function that is running.
    obtain ⟨reads, hold, hreads⟩ : ∃ reads, old = reads ++ w.history ∧
        ∀ e ∈ reads, ∃ x, e = .tracked x (.memo n) .value := by
      rcases tracked with rfl | ⟨x, -, rfl⟩
      · exact ⟨[], rfl, List.forall_mem_nil _⟩
      · exact ⟨[_], rfl, List.forall_mem_singleton.2 ⟨x, rfl⟩⟩
    refine hs.go (l := .started n :: .cleared n :: reads) hx (by rw [past, hold]; rfl) ?_
      (fun k hk _ => ?_) (fun rt batch hr => ⟨batch, (rounds rt batch).1 hr⟩) fun rt k _ ha => .inr ?_
    · refine List.forall_mem_cons.2 ⟨id, List.forall_mem_cons.2 ⟨id, fun e he => ?_⟩⟩
      obtain ⟨x, rfl⟩ := hreads e he
      exact id
    · by_cases hkn : k = n
      · rw [hkn, sinceStart_started] at hk
        cases hk
      · rw [sinceStart_cons (by simpa using Ne.symm hkn)] at hk
        have hk := List.takeWhile_subset _ ((List.mem_cons.1 hk).resolve_left (by simp))
        rcases List.mem_cons.1 hk with he | hk
        · exact absurd (Event.cleared.inj he) hkn
        · obtain ⟨x, he⟩ := hreads _ hk
          cases he
    · simpa only [Awaits, rounds, pending] using ha
  | @write _ _ _ _ rt write past frames =>
    obtain ⟨new, past, hnew⟩ := past
    refine hs.same (l := .wrote write :: new) hx past
      (List.forall_mem_cons.2 ⟨id, calm hnew⟩) (fun n hm => ?_)
      (fun rt batch => (mem_of_work_cons frames rfl).trans (or_iff_right (by simp)))
      fun n => (mem_of_work_cons frames rfl).trans (or_iff_right (by simp))
    exact (List.mem_cons.1 hm).elim (by simp) (none hnew n)
  | trigger =>
    refine hs.same (l := [_]) hx (World.history_taken ..) (List.forall_mem_singleton.2 id)
      (by simp) (by simp) (by simp)
  | tell past => exact hs.same (l := []) hx past (by simp) (by simp) (by simp) (by simp)
  | forward past => exact hs.same (l := []) hx past (by simp) (by simp) (by simp) (by simp)
  | @enqueue _ g rt n ns =>
    have flushing := hc.not_mem_flushing hc.aloof.1 fun f hf => by
      obtain rfl := Option.some.inj hf
      exact id
    have rounds (rt' : RuntimeId) (batch : List NodeId) : .round rt' batch ∉ .telling rt (n :: ns) :: g :=
      fun hr => (hc.standing.exists_flushing hr (.inr ⟨rt', batch, rfl⟩)).elim flushing
    exact hs.queued hx (World.history_queuedIn ..) rounds (by simpa using rounds) (by simp)
  | @schedule _ _ rt n code =>
    have hidle : actives g = [] := idle (e := .scheduled n) trivial (by
      rcases World.history_queuedIn (w.note (.scheduled n)) rt n with hh | hh <;> rw [hh]
      · exact ⟨[.queued rt n], rfl⟩
      · exact ⟨[.requested rt, .queued rt n], rfl⟩)
    have flushing := hc.not_mem_flushing hidle (code.not_isIdle hc.plain)
    have rounds (rt' : RuntimeId) (batch : List NodeId) : .round rt' batch ∉ g :=
      fun hr => (hc.standing.exists_flushing hr (.inr ⟨rt', batch, rfl⟩)).elim flushing
    have hs' : Served (w.note (.scheduled n)) g :=
      hs.same (l := [_]) (.note w _) rfl (List.forall_mem_singleton.2 id) (by simp) (by simp) (by simp)
    exact hs'.queued (.queuedIn ..) (World.history_queuedIn ..) rounds rounds fun _ => id
  | dirty past =>
    exact hs.same (l := [_]) hx past (List.forall_mem_singleton.2 id) (by simp) (by simp) (by simp)
  | @takeUp _ _ _ _ rt n past frames =>
    refine hs.same (l := [_]) hx past (List.forall_mem_singleton.2 id) (by simp)
      (fun rt batch => (mem_of_work_cons frames rfl).trans (or_iff_right (by simp)))
      fun n => (mem_of_work_cons frames rfl).trans (or_iff_right (by simp))
  | @run _ f g n rt turn =>
    refine hs.go (l := [.started n, .cleared n]) hx (World.history_running ..) (by simp [Event.Schedules])
      (fun k hk _ => ?_) (fun rt batch hr => ⟨batch, ?_⟩) fun rt' k hk ha => .inr ?_
    · by_cases hkn : k = n
      · rw [hkn, sinceStart_started] at hk
        cases hk
      · rw [sinceStart_cons (by simpa using Ne.symm hkn)] at hk
        have hk := List.takeWhile_subset _ ((List.mem_cons.1 hk).resolve_left (by simp))
        exact absurd (Event.cleared.inj (List.mem_singleton.1 hk)) hkn
    · exact List.mem_cons_of_mem _ ((List.mem_cons.1 hr).resolve_left (by simp))
    · have hkn : k ≠ n := by
        rintro rfl
        exact hk List.mem_cons_self
      rcases turn with rfl | rfl <;> simpa [Awaits, hkn] using ha
  | clear busy => exact absurd busy hc.not_isRunning_of_pending
  | @dispose _ _ _ _ n disposed past frames =>
    obtain ⟨new, past, hnew⟩ := past
    rw [List.append_cons] at past
    refine hs.go hx past (fun e he => ?_) (fun k hk _ => ?_)
      (fun rt batch hr => ⟨batch, (mem_of_work frames rfl).1 hr⟩) fun rt k _ ha => .inr ?_
    · rcases List.mem_append.1 he with he | he
      · exact calm hnew e he
      · rw [List.mem_singleton.1 he]
        exact id
    · have hk := (List.mem_append.1 (List.takeWhile_subset _ hk)).resolve_left (none hnew k)
      exact Event.cleared.inj (List.mem_singleton.1 hk) ▸ disposed
    · refine ha.imp (mem_of_work frames rfl).2 ?_
      rintro ⟨batch, hr, hn⟩
      exact ⟨batch, (mem_of_work frames rfl).2 hr, hn⟩
  | beginFlush =>
    exact hs.same (l := [_]) hx rfl (List.forall_mem_singleton.2 id) (by simp) (by simp) (by simp)
  | @beginRound _ g rt =>
    exact hs.beginRound fun rt' batch hr =>
      (hc.standing.2.exists_flushing hr (.inr ⟨rt', batch, rfl⟩)).elim hc.not_mem_flushing_below
  | @giveUp _ _ _ _ g rt work frames =>
    rcases frames with rfl | ⟨rfl, hcap⟩
    · exact absurd ((hc.queues rt).symm.trans (hs.waits rt [] List.mem_cons_self)) work
    · exact absurd hcap (hc.caps rt (hc.valid _ List.mem_cons_self)).ne'
  | @skipTurn _ g rt n batch disposed =>
    refine hs.rest (l := []) hx rfl (by simp) (by simp) (fun rt' batch' hr => ?_) ?_
    · rcases List.mem_cons.1 hr with he | hr
      · obtain ⟨rfl, -⟩ := Frame.round.inj he
        exact ⟨_, List.mem_cons_self⟩
      · exact ⟨batch', List.mem_cons_of_mem _ hr⟩
    · rintro rt' k (hp | ⟨batch', hr, hk⟩)
      · exact .inr (.inl (by simpa using hp))
      · rcases List.mem_cons.1 hr with he | hr
        · obtain ⟨rfl, rfl⟩ := Frame.round.inj he
          rcases List.mem_cons.1 hk with rfl | hk
          · exact .inl disposed
          · exact .inr (.inr ⟨batch, List.mem_cons_self, hk⟩)
        · exact .inr (.inr ⟨batch', List.mem_cons_of_mem _ hr, hk⟩)
  | @beginTurn _ g rt n batch =>
    refine hs.rest (l := [_]) hx rfl (List.forall_mem_singleton.2 id) (by simp)
      (fun rt' batch' hr => ?_) ?_
    · rcases List.mem_cons.1 ((List.mem_cons.1 hr).resolve_left (by simp)) with he | hr
      · obtain ⟨rfl, -⟩ := Frame.round.inj he
        exact ⟨_, List.mem_cons_self⟩
      · exact ⟨batch', List.mem_cons_of_mem _ hr⟩
    · rintro rt' k (hp | ⟨batch', hr, hk⟩)
      · exact .inr (.inl (List.mem_cons_of_mem _ (by simpa using hp)))
      · rcases List.mem_cons.1 hr with he | hr
        · obtain ⟨rfl, rfl⟩ := Frame.round.inj he
          rcases List.mem_cons.1 hk with rfl | hk
          · exact .inr (.inl List.mem_cons_self)
          · exact .inr (.inr ⟨batch, by simp, hk⟩)
        · exact .inr (.inr ⟨batch', by simp [hr], hk⟩)
  | @endFlush _ g rt done =>
    exact hs.endFlush ((hc.queues rt).trans done)
      (hc.standing.2.not_awaits hc.not_mem_flushing_below)

theorem Frame.exists_mem_doneFor {f : Frame} {g : List Frame} (hf : f ∈ g) (h : f.isCalling) :
    ∃ n, f ∈ doneFor n g := by
  cases f with
  | amid s => exact ⟨s.node, List.mem_filter.2 ⟨hf, beq_self_eq_true _⟩⟩
  | _ => cases h

theorem Reaches.composed {settings : Settings} {hook : Hook} {w : World} {g : List Frame} {u : Bool}
    (h : Reaches (.start settings hook) ⟨w, g, u⟩) (ok : w.Observing) : Config.Composed ⟨w, g, u⟩ where
  standing := h.standing.1
  valid := (h.sane (Config.start_sane settings hook)).frames
  plain f hf := by
    by_contra hcalling
    obtain ⟨n, hn⟩ := Frame.exists_mem_doneFor hf (Bool.of_not_eq_false hcalling)
    exact hcalling ((((h.aloof ok).2.2 n).frames f hn).2)
  aloof := (h.aloof ok).2.1
  hooks := ok.steady.hooks
  caps := ok.caps
  queues := (h.attentive ok.steady.exhausted).queues
  active n hn := by
    have hframes : g.countP (Frame.runs n) = (w.isRunning n).toNat := (h.lives n).frames
    rw [hn] at hframes
    obtain ⟨f, hf, hruns⟩ := List.countP_pos_iff.1 (Nat.lt_of_lt_of_eq Nat.one_pos hframes.symm)
    cases f with
    | running m rt =>
      obtain rfl : m = n := eq_of_beq hruns
      exact mem_actives.2 (.inl ⟨rt, hf⟩)
    | _ => cases hruns

/-- Flushes of a program whose functions only read are over after one round, and run whom they take. -/
theorem Reaches.served {settings : Settings} {hook : Hook} {c : Config}
    (h : Reaches (.start settings hook) c) (ok : c.world.Observing) : Served c.world c.stack := by
  induction h with
  | refl => 
    refine ⟨nofun, nofun, nofun, fun rt old ho => ?_, nofun⟩
    cases List.eq_nil_of_suffix_nil ho
  | @tail c c' steps step ih =>
    obtain ⟨w, g, u⟩ := c
    obtain ⟨w', g', u'⟩ := c'
    have ok' := ok.of_extends step.extends
    obtain rfl : u = false := (steps.aloof ok').1
    obtain rfl : u' = false := step.not_unwinding ok.steady.threw ok.steady.exhausted
    have hc := steps.sane (Config.start_sane settings hook)
    exact (step.works hc).served step.extends (steps.composed ok')
      (fun deed hs => steps.idle ok step.extends deed hs fun _ => id) (ih ok')

end Reactivity
