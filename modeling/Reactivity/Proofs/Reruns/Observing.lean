import Reactivity.Proofs.Registration.Cleaning
import Reactivity.Proofs.Updates.Recomputation

namespace Reactivity

/-- The event is not brought about by a function that only reads: something is written, a memo is
made dirty, an effect is queued without a change, a cleanup is added, or a flush begins. -/
def Event.IsDeed : Event → Prop
  | .wrote _ | .dirtied _ | .scheduled _ | .cleanupAdded .. | .flushBegan _ => True
  | _ => False

/-- The functions of effects and memos only read, nothing is thrown, and no memo is read while it is
being computed; no hook flushes at once, and every flush may take a round. -/
structure World.Observing (w : World) : Prop where
  steady : w.Steady
  caps : ∀ rt, rt < w.runtimes.size → 0 < (w.runtime rt).settings.flushCap
  reads : ∀ e old, e :: old <:+ w.history → e.IsDeed → ∀ n, ¬ Open n old

theorem World.Observing.of_extends {w w' : World} (h : w'.Observing) (he : w.Extends w') :
    w.Observing where
  steady := h.steady.of_extends he
  caps rt hrt := by
    obtain ⟨hrt', hs, -⟩ := he.runtimes rt hrt
    exact hs ▸ h.caps rt hrt'
  reads e old hs := h.reads e old (hs.trans he.history)

/-- The nodes whose functions have been started and have not returned since. -/
def openNodes : List Event → List NodeId
  | [] => []
  | e :: old =>
    match e with
    | .started n => n :: openNodes old
    | .finished n => (openNodes old).filter (· != n)
    | _ => openNodes old

theorem mem_openNodes {n : NodeId} {history : List Event} (h : Open n history) :
    n ∈ openNodes history := by
  induction history with
  | nil => cases h.1
  | cons e old ih =>
    have earlier (hs : e ≠ .started n) : Open n old := by
      have hf := h.2
      rw [sinceStart_cons hs, List.mem_cons, not_or] at hf
      exact ⟨(List.mem_cons.1 h.1).resolve_left (Ne.symm hs), hf.2⟩
    cases e with
    | started m =>
      by_cases hmn : m = n
      · exact hmn ▸ List.mem_cons_self
      · exact List.mem_cons_of_mem _ (ih (earlier (by simpa using hmn)))
    | finished m =>
      refine List.mem_filter.2 ⟨ih (earlier (by simp)), ?_⟩
      have hf := h.2
      rw [sinceStart_cons (by simp), List.mem_cons, not_or] at hf
      have hne : n ≠ m := by
        rintro rfl
        exact hf.1 rfl
      simpa using hne
    | _ => exact ih (earlier (by simp))

theorem not_isEmpty_openNodes {n : NodeId} {history : List Event} (h : Open n history) :
    ¬ (openNodes history).isEmpty := fun he =>
  List.ne_nil_of_mem (mem_openNodes h) (List.isEmpty_iff.1 he)

/-- Whether a program whose functions only read may do this while functions are running. -/
def Event.fits (w : World) (running : List NodeId) : Event → Bool
  | .wrote _ | .dirtied _ | .scheduled _ | .cleanupAdded .. | .flushBegan _ => running.isEmpty
  | .changeBegan _ | .passAsked _ | .delivered .. => running.all fun n => (w.memo? n).isNone
  | .started m => !running.contains m &&
    ((w.effect? m).isNone || running.all fun n => (w.memo? n).isNone)
  | .threw _ | .exhausted => false
  | _ => true

/-- Whether the program has done in its past only what it may if its functions only read. -/
def observes (w : World) : List Event → Bool
  | [] => true
  | e :: old => e.fits w (openNodes old) && observes w old

theorem fits_of_observes {w : World} {history : List Event} (h : observes w history) {e : Event}
    {old : List Event} (hs : e :: old <:+ history) : e.fits w (openNodes old) := by
  induction history with
  | nil => cases List.eq_nil_of_suffix_nil hs
  | cons e' old' ih =>
    rw [observes, Bool.and_eq_true] at h
    rcases List.suffix_cons_iff.1 hs with he | hs
    · obtain ⟨rfl, rfl⟩ := List.cons.inj he
      exact h.1
    · exact ih h.2 hs

theorem World.observing_of_observes {w : World} (one : w.runtimes.size = 1)
    (hook : (w.runtime 0).hook ≠ .flush) (cap : 0 < (w.runtime 0).settings.flushCap)
    (h : observes w w.history) : w.Observing := by
  have only {rt : RuntimeId} (hrt : rt < w.runtimes.size) : rt = 0 := Nat.lt_one_iff.1 (one ▸ hrt)
  have never {e : Event} (he : ∀ running, e.fits w running = false) : e ∉ w.history := by
    intro hm
    obtain ⟨new, old, hh⟩ := List.append_of_mem hm
    have hfits : e.fits w (openNodes old) := fits_of_observes h ⟨new, hh.symm⟩
    rw [he] at hfits
    cases hfits
  refine ⟨⟨fun rt hrt => only hrt ▸ hook, fun message => never fun _ => rfl, never fun _ => rfl,
    fun n _ old hs ho => ?_, fun n hn e old hs ho hi => ?_⟩, fun rt hrt => only hrt ▸ cap,
    fun e old hs deed n ho => ?_⟩
  · have hfits := fits_of_observes h hs
    simp [Event.fits, mem_openNodes ho] at hfits
  · have hfits := fits_of_observes h hs
    have hopen := mem_openNodes ho
    have memos : (openNodes old).all (fun n => (w.memo? n).isNone) = false := by
      refine List.all_eq_false.2 ⟨n, hopen, ?_⟩
      obtain ⟨m, hm⟩ := Option.isSome_iff_exists.1 hn
      rw [hm]
      simp
    cases e with
    | wrote | dirtied | flushBegan => exact absurd hfits (not_isEmpty_openNodes ho)
    | changeBegan | passAsked | delivered => exact absurd (memos.symm.trans hfits) (by simp)
    | started m =>
      obtain ⟨effect, he⟩ := Option.isSome_iff_exists.1 hi
      rw [Event.fits, he, memos, Option.isNone_some, Bool.or_false, Bool.and_false] at hfits
      cases hfits
    | _ => exact hi
  · have hfits := fits_of_observes h hs
    cases e with
    | wrote | dirtied | scheduled | cleanupAdded | flushBegan =>
      exact absurd hfits (not_isEmpty_openNodes ho)
    | _ => exact deed

section Idle

variable {settings : Settings} {hook : Hook} {w w' : World} {g : List Frame} {u : Bool}

theorem Reaches.open_of_mem_actives (h : Reaches (.start settings hook) ⟨w, g, u⟩)
    (ok : w.Steady) {n : NodeId} (hn : n ∈ actives g) : Open n w.history := by
  rcases mem_actives.1 hn with ⟨rt, hf⟩ | ⟨rt, start, hf⟩
  · have hlives := h.lives n
    have hcount : 0 < g.countP (Frame.runs n) := List.countP_pos_iff.2 ⟨_, hf, beq_self_eq_true n⟩
    have hrunning : w.isRunning n := by
      have hframes : g.countP (Frame.runs n) = (w.isRunning n).toNat := hlives.frames
      rw [hframes] at hcount
      cases hr : w.isRunning n with
      | true => rfl
      | false => rw [hr] at hcount; cases hcount
    obtain ⟨run, old, hpast, hs, hf⟩ := hlives.running hrunning
    have hpast : w.history = run ++ .started n :: .cleared n :: old := hpast
    refine ⟨by simp [hpast], ?_⟩
    rw [hpast, sinceStart_append hs, sinceStart_started, List.append_nil]
    exact hf
  · exact (h.reckoned ok).2.2.opened (h.sane (Config.start_sane settings hook)) n
      (mem_computings.2 ⟨rt, start, hf⟩)

/-- What a function that only reads does not bring about happens when none is running. -/
theorem Reaches.idle (h : Reaches (.start settings hook) ⟨w, g, u⟩) (ok : w'.Observing)
    (hx : w.Extends w') {e : Event} {old : List Event} (deed : e.IsDeed)
    (hs : e :: old <:+ w'.history) (ho : ∀ n, Open n w.history → Open n old) : actives g = [] := by
  refine List.eq_nil_iff_forall_not_mem.2 fun n hn => ?_
  exact ok.reads e old hs deed n (ho n (h.open_of_mem_actives (ok.of_extends hx).steady hn))

end Idle

/-- Where nodes are being told of a change, and below a flush, no function is running. -/
def Aloof : List Frame → Prop
  | [] => True
  | .writing .. :: g => actives g = [] ∧ Aloof g
  | .telling .. :: g => actives g = [] ∧ Aloof g
  | .flushing _ :: g => actives g = [] ∧ Aloof g
  | _ :: g => Aloof g

theorem Step.aloof {settings : Settings} {hook : Hook} {w w' : World} {g g' : List Frame} {u' : Bool}
    (h : Step ⟨w, g, false⟩ ⟨w', g', u'⟩) (hreach : Reaches (.start settings hook) ⟨w, g, false⟩)
    (ok : w'.Observing) (ha : Aloof g) : Aloof g' := by
  have idle {e : Event} (deed : e.IsDeed) (hs : e :: w.history <:+ w'.history) : actives g = [] :=
    hreach.idle ok h.extends deed hs fun _ => id
  have hx := h.extends
  cases h with
  | write _ _ _ edit => exact ⟨idle (e := .wrote _) trivial ⟨[], edit.history.symm⟩, ha⟩
  | @endChange w g rt id before after _ _ =>
    refine ⟨hreach.idle ok hx (e := .wrote (.items id before after)) trivial (List.suffix_refl _)
      fun n ho => ?_, ha⟩
    exact ho.cons nofun
  | trigger | tellClean _ _ => exact ⟨ha.1, ha⟩
  | markClean _ _ _ _ => exact ⟨idle (e := .dirtied _) trivial (List.suffix_refl _), ha⟩
  | takeUp _ _ _ => exact ⟨idle (e := .scheduled _) trivial (List.suffix_refl _), ha⟩
  | beginFlush _ _ _ _ _ => exact ⟨idle (e := .flushBegan _) trivial (List.suffix_refl _), ha⟩
  | written | told | endFlush _ => exact ha.2
  | beginRun _ _ _ turn _ =>
    rcases turn with ⟨rfl, -⟩ | ⟨rfl, -⟩ <;> exact ha
  | giveUp _ frames => rcases frames with rfl | ⟨rfl, -⟩ <;> exact ha
  | _ => exact ha

/-- The effect has no cleanups, and none are called for it. -/
structure Config.Uncleaned (c : Config) (n : NodeId) : Prop where
  plan : ∀ p, c.world.plan n = some p → p.cleanups = []
  frames : ∀ f ∈ doneFor n c.stack, f.left = [] ∧ f.isCalling = false

theorem Acts.uncleaned {n : NodeId} {c c' : Config} (h : Acts n c c')
    (added : ∀ rt x, c.world.currentReader rt = some n →
      c'.world.history ≠ .cleanupAdded n x :: c.world.history)
    (hc : c.Uncleaned n) : c'.Uncleaned n := by
  obtain ⟨hplan, hframes⟩ := hc
  -- A frame that is for the effect comes to stand on the others.
  have push (f : Frame) {g : List Frame} (hf : f.left = [] ∧ f.isCalling = false)
      (hg : ∀ f ∈ doneFor n g, f.left = [] ∧ f.isCalling = false) :
      ∀ x ∈ doneFor n (f :: g), x.left = [] ∧ x.isCalling = false := by
    intro x hx
    rw [doneFor, List.filter_cons] at hx
    split at hx
    · rcases List.mem_cons.1 hx with hx | hx
      · exact hx ▸ hf
      · exact hg x hx
    · exact hg x hx
  have pop {f : Frame} {g : List Frame}
      (hg : ∀ x ∈ doneFor n (f :: g), x.left = [] ∧ x.isCalling = false) :
      ∀ f ∈ doneFor n g, f.left = [] ∧ f.isCalling = false := by
    intro x hx
    refine hg x ?_
    rw [doneFor, List.filter_cons]
    split
    · exact List.mem_cons_of_mem _ hx
    · exact hx
  have top {s : Stage} {g : List Frame} (hs : s.node = n)
      (hg : ∀ x ∈ doneFor n (.amid s :: g), x.left = [] ∧ x.isCalling = false) :
      (Frame.amid s).left = [] ∧ (Frame.amid s).isCalling = false :=
    hg _ (doneFor_amid hs g ▸ List.mem_cons_self)
  cases h with
  | leave world frames => exact ⟨fun p hp => hplan p (world.plan ▸ hp), by rwa [frames]⟩
  | make _ _ plan _ none _ _ =>
    refine ⟨fun p hp => ?_, push (.created n) ⟨rfl, rfl⟩ hframes⟩
    obtain rfl := Option.some.inj (plan.symm.trans hp)
    exact none
  | addCleanup _ _ reader _ _ => exact absurd rfl (added _ _ reader)
  | cleanedUp _ => exact ⟨hplan, hframes⟩
  | turn _ => exact ⟨hplan, push (.pending n) ⟨rfl, rfl⟩ (push (.round ..) ⟨rfl, rfl⟩ (pop hframes))⟩
  | ended world _ frames =>
    refine ⟨fun p hp => hplan p (world.plan ▸ hp), fun x hx => hframes x ?_⟩
    rw [frames]
    exact List.mem_cons_of_mem _ hx
  | start _ _ =>
    refine ⟨fun p hp => hplan p ?_, push (.running ..) ⟨rfl, rfl⟩ (pop hframes)⟩
    rwa [World.plan_running] at hp
  | @clean w g e effect =>
    refine ⟨fun p hp => ?_, push (.amid _) ⟨hplan _ (World.plan_of_effect? effect), rfl⟩ hframes⟩
    obtain ⟨q, -, rfl⟩ := Option.map_eq_some_iff.1 ((w.plan_cleaning n e.runtime).symm.trans hp)
    rfl
  | @dispose w g e effect =>
    refine ⟨fun p hp => ?_, push (.amid _) ⟨hplan _ (World.plan_of_effect? effect), rfl⟩ hframes⟩
    obtain ⟨q, -, rfl⟩ :=
      Option.map_eq_some_iff.1 (((w.disposing n).plan_cleaning n e.runtime).symm.trans hp)
    rfl
  | endCleaning => exact ⟨hplan, pop hframes⟩
  | abandonCleaning _ _ => exact ⟨hplan, pop hframes⟩
  | @retire w g u _ =>
    refine ⟨fun p hp => ?_, hframes⟩
    obtain ⟨q, hq, rfl⟩ := Option.map_eq_some_iff.1 ((w.plan_disposing n).symm.trans hp)
    exact hplan q hq
  | beginWatch _ => exact ⟨hplan, push (.amid _) ⟨rfl, rfl⟩ hframes⟩
  | advance h node =>
    refine ⟨hplan, ?_⟩
    have htop := top node hframes
    cases h with
    | clean => cases htop.1
    | cleaned => cases htop.2
    | got | call | called => exact push (.amid _) ⟨rfl, rfl⟩ (pop hframes)
  | @keep w g job duties _ =>
    refine ⟨fun p hp => ?_, push (.amid _) ⟨rfl, rfl⟩ (pop hframes)⟩
    obtain ⟨q, hq, rfl⟩ := Option.map_eq_some_iff.1 ((w.plan_modifyEffect n
      (F := fun p => { p with job := job.base }) fun _ => rfl).symm.trans hp)
    exact hplan q hq
  | endReport => exact ⟨hplan, pop hframes⟩
  | drop _ _ => exact ⟨hplan, pop hframes⟩

theorem Config.Sane.mem_actives_of_currentReader {w : World} {g : List Frame} {u : Bool}
    (h : Config.Sane ⟨w, g, u⟩) {rt : RuntimeId} {n : NodeId} (hn : w.currentReader rt = some n) :
    n ∈ actives g := by
  by_cases hrt : rt < w.runtimes.size
  · exact h.currentReader_mem_actives hrt hn
  · rw [World.currentReader, World.runtime, Array.getElem?_eq_none (Nat.le_of_not_lt hrt)] at hn
    cases hn

theorem Reaches.aloof {settings : Settings} {hook : Hook} {c : Config}
    (h : Reaches (.start settings hook) c) (ok : c.world.Observing) :
    c.unwinding = false ∧ Aloof c.stack ∧ ∀ n, c.Uncleaned n := by
  induction h with
  | refl =>
    refine ⟨rfl, trivial, fun n => ⟨fun p hp => ?_, nofun⟩⟩
    obtain ⟨e, he, -⟩ := World.plan_eq_some.1 hp
    simp [Config.start, World.start, World.effect?] at he
  | @tail c c' steps step ih =>
    obtain ⟨w, g, u⟩ := c
    obtain ⟨rfl, ha, hu⟩ := ih (ok.of_extends step.extends)
    have hc : Config.Sane ⟨w, g, false⟩ := steps.sane (Config.start_sane settings hook)
    refine ⟨step.not_unwinding ok.steady.threw ok.steady.exhausted, step.aloof steps ok ha,
      fun n => (step.acts hc n).uncleaned (fun rt x hn hh => ?_) (hu n)⟩
    have hidle := steps.idle ok step.extends (e := .cleanupAdded n x) trivial ⟨[], hh.symm⟩ fun _ => id
    have hm := hc.mem_actives_of_currentReader hn
    rw [hidle] at hm
    cases hm

/-- The frame is a flush, or stands on one where no function is running. -/
def Frame.IsIdle : Frame → Prop
  | .flushing _ | .round .. | .pending _ => True
  | .amid s => s.mask?.isSome
  | _ => False

section Flush

variable {w : World} {g : List Frame} {rt : RuntimeId}

/-- Where nobody's cleanups are called, the program's own code is not that of a flush. -/
theorem AtCode.not_isIdle (code : AtCode g) (plain : ∀ f ∈ g, f.isCalling = false) :
    ∀ f ∈ g.head?, ¬ f.IsIdle := by
  intro f hf hi
  obtain _ | ⟨f', g⟩ := g
  · cases hf
  · obtain rfl := Option.some.inj hf
    cases f' with
    | flushing | round | pending => exact code.elim
    | amid s =>
      cases s with
      | cleaning => cases code
      | cleanup => cases plain _ List.mem_cons_self
      | getting | reporting | calling => cases hi
    | _ => exact hi

/-- Wherever something else is done in the course of a flush, a function is running. -/
theorem Standing.actives_ne_nil (h : Standing w g) (plain : ∀ f ∈ g, f.isCalling = false)
    (hf : .flushing rt ∈ g) (top : ∀ f ∈ g.head?, ¬ f.IsIdle) : actives g ≠ [] := by
  induction g with
  | nil => cases hf
  | cons f g ih =>
    have plain' : ∀ f ∈ g, f.isCalling = false := fun f hf => plain f (List.mem_cons_of_mem _ hf)
    have htop : ¬ f.IsIdle := top f rfl
    have below (hne : ∀ rt, f ≠ .flushing rt) (code : AtCode g) : actives g ≠ [] :=
      ih h.2 plain' ((List.mem_cons.1 hf).resolve_left (Ne.symm (hne rt)))
        (code.not_isIdle plain')
    -- What the watcher of a store has asked for is done while it is running.
    have notified {id : StoreId} (hn : OnNotified w id g) : actives g ≠ [] := by
      obtain ⟨rt, batch, s, rfl⟩ := hn
      exact List.cons_ne_nil _ _
    cases f with
    | running | computing => exact List.cons_ne_nil _ _
    | flushing | round | pending => exact absurd trivial htop
    | writing rt' x keys =>
      rcases h.1 with hc | ⟨nodes, s, rfl⟩
      · exact below (by simp) hc.1
      · exact ih h.2 plain' ((List.mem_cons.1 hf).resolve_left (by simp)) (by simp [Frame.IsIdle])
    | telling rt' nodes =>
      rcases h.1 with hc | ⟨id, -, -, hn⟩ | ⟨x, keys, s, rfl⟩
      · exact below (by simp) hc.1
      · exact notified hn
      · exact ih h.2 plain' ((List.mem_cons.1 hf).resolve_left (by simp)) (by simp [Frame.IsIdle])
    | watched | notified =>
      obtain ⟨rt', s, rfl⟩ := h.1
      exact List.cons_ne_nil _ _
    | amid s =>
      cases s with
      | cleaning | cleanup => exact absurd rfl htop
      | getting | reporting | calling =>
        obtain ⟨-, rt', s, rfl⟩ := h.1
        exact List.cons_ne_nil _ _
    | passing id rt' =>
      rcases h.1 with hc | ⟨-, hn⟩
      · exact below (by simp) hc.1
      · exact notified hn
    | passed id =>
      rcases h.1 with hc | hn
      · exact below (by simp) hc.1
      · exact notified hn
    | calling sub =>
      rcases h.1 with hc | hp
      · exact below (by simp) hc.1
      · refine ih h.2 plain' ((List.mem_cons.1 hf).resolve_left (by simp)) fun f hf => ?_
        obtain _ | ⟨f', g⟩ := g
        · cases hf
        · obtain rfl := Option.some.inj hf
          cases f' <;> first | exact hp.elim | exact id
    | beyond => exact h.1.elim
    | reading | changing | masked | created | greeting => exact below (by simp) h.1.1

theorem Standing.exists_flushing (h : Standing w g)
    {f : Frame} (hm : f ∈ g) (hf : (∃ n, f = .pending n) ∨ ∃ rt batch, f = .round rt batch) :
    ∃ rt, .flushing rt ∈ g := by
  induction g with
  | nil => cases hm
  | cons f' g ih =>
    rcases List.mem_cons.1 hm with rfl | hm
    · rcases hf with ⟨n, rfl⟩ | ⟨rt, batch, rfl⟩
      · obtain ⟨⟨rt, batch, g', rfl⟩, ⟨g'', rfl⟩, -⟩ := h
        exact ⟨rt, by simp⟩
      · obtain ⟨⟨g', rfl⟩, -⟩ := h
        exact ⟨rt, by simp⟩
    · obtain ⟨rt, hrt⟩ := ih h.2 hm
      exact ⟨rt, List.mem_cons_of_mem _ hrt⟩

theorem Aloof.not_mem_flushing (ha : Aloof (.flushing rt :: g)) (hs : Standing w (.flushing rt :: g))
    (plain : ∀ f ∈ g, f.isCalling = false) (hw : w.Unhurried) (hrt : rt < w.runtimes.size)
    (rt' : RuntimeId) : .flushing rt' ∉ g := by
  intro hf
  have code : AtCode g := hs.1.elim (·.1) fun ⟨hhook, _⟩ => absurd hhook (hw rt hrt)
  exact hs.2.actives_ne_nil plain hf (code.not_isIdle plain) ha.1

end Flush

end Reactivity
