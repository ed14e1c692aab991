import Reactivity.Proofs.Passes.Standing
import Reactivity.Proofs.Registration.Acting
import Reactivity.Proofs.Updates.Reporting

namespace Reactivity

def Frame.watchStage? : Frame → Option Stage
  | .amid s => if s.mask? = none then some s else none
  | _ => none

def watchStages (n : NodeId) (g : List Frame) : List Stage :=
  (doneFor n g).filterMap Frame.watchStage?

section Stages

variable {n : NodeId} {g : List Frame}

theorem watchStages_cons_of_none {f : Frame} (hf : f.watchStage? = none) (g : List Frame) :
    watchStages n (f :: g) = watchStages n g := by
  rw [watchStages, doneFor, List.filter_cons]
  split
  · rw [List.filterMap_cons_none hf]
    rfl
  · rfl

theorem watchStages_cons {s : Stage} (hn : s.node = n) (hs : s.mask? = none) (g : List Frame) :
    watchStages n (.amid s :: g) = s :: watchStages n g := by
  have hstage : (Frame.amid s).watchStage? = some s := if_pos hs
  rw [watchStages, doneFor_cons_of_pos (f := .amid s) (beq_iff_eq.2 hn),
    List.filterMap_cons_some hstage]
  rfl

theorem watchStages_getting (n : NodeId) (job : Job) (g : List Frame) :
    watchStages n (.amid (.getting n job) :: g) = .getting n job :: watchStages n g :=
  watchStages_cons (s := .getting n job) rfl rfl g

theorem watchStages_reporting (n : NodeId) (duties : List Duty) (g : List Frame) :
    watchStages n (.amid (.reporting n duties) :: g) = .reporting n duties :: watchStages n g :=
  watchStages_cons (s := .reporting n duties) rfl rfl g

theorem watchStages_calling (n : NodeId) (new : Result) (old : Option Result) (duties : List Duty)
    (g : List Frame) : watchStages n (.amid (.calling n new old duties) :: g) =
      .calling n new old duties :: watchStages n g :=
  watchStages_cons (s := .calling n new old duties) rfl rfl g

theorem watchStages_cons_of_ne {s : Stage} (hn : s.node ≠ n) (g : List Frame) :
    watchStages n (.amid s :: g) = watchStages n g := by
  rw [watchStages, doneFor_cons_of_neg (by simp [Frame.isFor, hn])]
  rfl

theorem watchStages_cons_of_mask {s : Stage} {rt : RuntimeId} (hs : s.mask? = some rt)
    (g : List Frame) : watchStages n (.amid s :: g) = watchStages n g := by
  have hnone : s.mask? ≠ none := by simp [hs]
  exact watchStages_cons_of_none (f := .amid s) (if_neg hnone) g

theorem watchStages_of_doneFor {g' : List Frame} (h : doneFor n g' = doneFor n g) :
    watchStages n g' = watchStages n g := by
  rw [watchStages, h]
  rfl

theorem Standing.watchStages_le {w : World} (h : Standing w g) :
    (watchStages n g).length ≤ g.countP (Frame.runs n) ∧
      ∀ rt s, g = .running n rt :: s → (watchStages n g).length < g.countP (Frame.runs n) := by
  induction g with
  | nil => exact ⟨Nat.le_refl _, nofun⟩
  | cons f g ih =>
    obtain ⟨hle, hlt⟩ := ih h.2
    have hcount : g.countP (Frame.runs n) ≤ (f :: g).countP (Frame.runs n) :=
      (List.sublist_cons_self f g).countP_le
    constructor
    · cases hf : f.watchStage? with
      | none =>
        rw [watchStages_cons_of_none hf]
        exact hle.trans hcount
      | some s =>
        cases f with
        | amid s' =>
          by_cases hn : s'.node = n
          · rw [Frame.watchStage?] at hf
            split at hf
            · next hmask =>
              -- The stage stands on the run that it is part of.
              have hrun : ∃ rt s, g = .running n rt :: s := by
                have hs := h.1
                cases s' with
                | cleaning | cleanup => cases hmask
                | getting | reporting | calling =>
                  obtain rfl := hn
                  exact hs.2
              obtain ⟨rt, s₀, hg⟩ := hrun
              rw [watchStages_cons hn hmask]
              exact (hlt rt s₀ hg).trans_le hcount
            · cases hf
          · rw [watchStages_cons_of_ne hn]
            exact hle.trans hcount
        | _ => cases hf
    · intro rt s hg
      obtain ⟨rfl, rfl⟩ := List.cons.inj hg
      rw [watchStages_cons_of_none rfl, List.countP_cons_of_pos (by simp [Frame.runs])]
      exact Nat.lt_succ_of_le hle

end Stages

section Kept

variable {w w' : World} {n : NodeId}

@[simp]
theorem Job.kept?_base (j : Job) : j.base.kept? = j.kept? := by
  cases j <;> rfl

theorem Job.isNew.kept {j : Job} (h : j.isNew) {k : Kept} (hk : j.kept? = some k) :
    k.fresh = true ∧ k.last = none := by
  cases j with
  | watch =>
    obtain rfl := Option.some.inj hk
    exact h
  | _ => cases hk

theorem Job.Follows.kept? {i j : Job} (h : i.Follows j) {k : Kept} (hk : j.kept? = some k) :
    ∃ k₀, i.kept? = some k₀ ∧ k.immediate = k₀.immediate := by
  cases j with
  | watch =>
    cases i with
    | watch =>
      obtain rfl := Option.some.inj hk
      exact ⟨_, rfl, h.2.2⟩
    | _ => exact h.elim
  | _ => cases hk

theorem World.kept?_eq_plan (w : World) (n : NodeId) :
    w.kept? n = (w.plan n).bind fun p => p.job.kept? := by
  rw [World.kept?, World.plan, Option.bind_map]
  congr
  funext e
  exact e.job.kept?_base.symm

theorem World.kept?_of_effect? {e : Effect} (h : w.effect? n = some e) :
    w.kept? n = e.job.kept? := by
  rw [World.kept?, h, Option.bind_some]

theorem World.kept?_congr (h : w'.plan n = w.plan n) : w'.kept? n = w.kept? n := by
  rw [World.kept?_eq_plan, World.kept?_eq_plan, h]

theorem World.kept?_of_map {f : Plan → Plan} (h : w'.plan n = (w.plan n).map f)
    (hf : ∀ p, (f p).job = p.job) : w'.kept? n = w.kept? n := by
  rw [World.kept?_eq_plan, World.kept?_eq_plan, h, Option.bind_map]
  congr
  funext p
  rw [Function.comp_apply, hf]

theorem World.kept?_cleaning (w : World) (n : NodeId) (rt : RuntimeId) :
    (w.cleaning n rt).kept? n = w.kept? n :=
  World.kept?_of_map (w.plan_cleaning n rt) fun _ => rfl

theorem World.kept?_disposing (w : World) (n : NodeId) : (w.disposing n).kept? n = w.kept? n :=
  World.kept?_of_map (w.plan_disposing n) fun _ => rfl

end Kept

theorem Event.OfWatch.isAbout {n : NodeId} {e : Event} (he : e.OfWatch n) : e.IsAbout n := by
  cases e <;> first | exact he | cases he

/-- What has happened agrees with what the watch keeps and with what is left to do. -/
structure Config.Reports (c : Config) (n : NodeId) : Prop where
  absent : c.world.effect? n = none →
    gots n c.world.history = [] ∧ calls n c.world.history = [] ∧
      .watchReturned n ∉ c.world.history
  present : ∀ k, c.world.kept? n = some k → (k.immediate → FirstReturns n c.world.history) →
    Report n k c.world.history (watchStages n c.stack).head? ∧
      Punctual n k.immediate c.world.history

namespace Config.Reports

variable {w w' : World} {g g' : List Frame} {u u' : Bool} {n : NodeId}

/-- Whatever keeps the stages, and has nothing to do with the results of the watch. -/
theorem stay (hr : Config.Reports ⟨w, g, u⟩ n) (hx : w.Extends w')
    (hk : w'.kept? n = w.kept? n) {l : List Event} (hh : w'.history = l ++ w.history)
    (hnew : ∀ e ∈ l, ¬ e.OfWatch n) (hg : watchStages n g' = watchStages n g) :
    Config.Reports ⟨w', g', u'⟩ n := by
  have agree : Agree n w.history w'.history := hh ▸ .append hnew w.history
  constructor
  · intro hnone
    dsimp only
    rw [agree.results, agree.called, agree.returned]
    exact hr.absent (hx.effect?_eq_none hnone)
  · intro k hkept hfirst
    have hsuffix : w.history <:+ w'.history := hh ▸ List.suffix_append _ _
    obtain ⟨hreport, hpunctual⟩ :=
      hr.present k (hk ▸ hkept) fun himm => (hfirst himm).mono hsuffix
    dsimp only
    rw [hg, hh]
    exact ⟨hreport.agree (.append hnew _), hpunctual.of_append hnew⟩

theorem leave (hr : Config.Reports ⟨w, g, u⟩ n) (hx : w.Extends w') (hl : w.Leaves n w')
    (hg : watchStages n g' = watchStages n g) : Config.Reports ⟨w', g', u'⟩ n := by
  obtain ⟨new, hh, hnew, -⟩ := hl.past
  have hwatch : ∀ e ∈ new, ¬ e.OfWatch n := fun e he h => hnew e he (Event.OfWatch.isAbout h)
  exact hr.stay hx (World.kept?_congr hl.plan) hh hwatch hg

theorem made (hr : Config.Reports ⟨w, g, u⟩ n) (hv : ∀ f ∈ g, f.Valid w)
    (hnone : w.effect? n = none) (hn : (w'.effect? n).isSome)
    (hnew : ∀ k, w'.kept? n = some k → k.fresh = true ∧ k.last = none)
    (hh : w'.history = w.history) : Config.Reports ⟨w', .created n :: g, u'⟩ n := by
  obtain ⟨hgots, hcalls, hreturned⟩ := hr.absent hnone
  constructor
  · intro hnone'
    rw [hnone'] at hn
    cases hn
  · intro k hk _
    obtain ⟨hfresh, hlast⟩ := hnew k hk
    have hstages : watchStages n (.created n :: g) = [] := by
      rw [watchStages_cons_of_none rfl, watchStages, doneFor_eq_nil hv hnone]
      rfl
    dsimp only at hgots hcalls hreturned ⊢
    rw [hstages, hh]
    refine ⟨.inl ⟨?_, ?_, ?_, fun _ => hreturned⟩, .of_nil hgots⟩
    · rw [hfresh, hgots]
      rfl
    · rw [hlast, hgots]
      rfl
    · rw [hcalls, hgots]
      rfl

/-- The same effect, with another event, other stages and perhaps another job. -/
theorem report (hr : Config.Reports ⟨w, g, u⟩ n) (hn : (w.effect? n).isSome) (hx : w.Extends w')
    (hh : w.history <:+ w'.history)
    (hk : ∀ k', w'.kept? n = some k' → ∃ k, w.kept? n = some k ∧ k'.immediate = k.immediate ∧
      ((k.immediate → FirstReturns n w'.history) →
        Report n k w.history (watchStages n g).head? → Punctual n k.immediate w.history →
          Report n k' w'.history (watchStages n g').head? ∧
            Punctual n k.immediate w'.history)) :
    Config.Reports ⟨w', g', u'⟩ n := by
  constructor
  · intro hnone
    have hn' := hx.isSome_effect? hn
    rw [hnone] at hn'
    cases hn'
  · intro k' hk' hfirst
    obtain ⟨k, hkept, himm, hstep⟩ := hk k' hk'
    rw [himm] at hfirst ⊢
    obtain ⟨hreport, hpunctual⟩ := hr.present k hkept fun h => (hfirst h).mono hh
    exact hstep hfirst hreport hpunctual

end Config.Reports

theorem Step.reports {c c' : Config} (h : Step c c') (hs : c.Sane) {n : NodeId}
    (call : c.unwinding = true → MidCall c.stack)
    (one : (watchStages n c.stack).length ≤ 1) (one' : (watchStages n c'.stack).length ≤ 1)
    (hr : c.Reports n) : c'.Reports n := by
  have hx := h.extends
  cases h.acts hs n with
  | leave hl frames => exact hr.leave hx hl (watchStages_of_doneFor frames)
  | make absent size plan new none live history =>
    obtain ⟨e, he, rfl⟩ := World.plan_eq_some.1 plan
    refine hr.made hs.frames (World.plan_eq_none.1 absent) (Option.isSome_of_eq_some he)
      (fun k hk => new.kept ?_) history
    rw [World.kept?_of_effect? he] at hk
    exact e.job.kept?_base.trans hk
  | @addCleanup w g rt e c code free reader effect live =>
    have hkept := World.kept?_of_map (w.plan_cleanupAdded n c) fun _ => rfl
    exact hr.stay hx hkept (l := [.cleanupAdded n c]) rfl
      (by simp [Event.OfWatch]) rfl
  | cleanedUp none =>
    exact hr.stay hx rfl (l := [.cleanedUp n]) rfl (by simp [Event.OfWatch]) rfl
  | turn live =>
    exact hr.stay hx rfl (l := [_]) rfl (by simp [Event.OfWatch]) (watchStages_cons_of_none rfl _)
  | @ended w w' f g g' u u' world runs frames =>
    refine hr.leave hx world ?_
    have hf : f.watchStage? = Option.none := by cases f <;> first | rfl | cases runs
    rw [watchStages, watchStages, frames, List.filterMap_cons_none hf]
  | @start w f g rt turn cleaned =>
    have hkept := World.kept?_congr (w.plan_running n rt)
    refine hr.stay hx hkept (w.history_running n rt) (l := [_, _])
      (by simp [Event.OfWatch]) ((watchStages_cons_of_none rfl _).trans ?_)
    rcases turn with rfl | rfl
    · exact (watchStages_cons_of_none rfl _).symm
    · exact (watchStages_cons_of_none rfl _).symm
  | clean effect =>
    exact hr.stay hx (World.kept?_cleaning _ _ _) (l := []) rfl (List.forall_mem_nil _)
      (watchStages_cons_of_mask rfl _)
  | dispose effect =>
    exact hr.stay hx ((World.kept?_cleaning _ _ _).trans (World.kept?_disposing _ _))
      (World.history_disposing _ _) (l := [_]) (by simp [Event.OfWatch])
      (watchStages_cons_of_mask rfl _)
  | endCleaning =>
    exact hr.stay hx rfl (l := [.cleanedUp n]) rfl (by simp [Event.OfWatch])
      (watchStages_cons_of_mask rfl _).symm
  | abandonCleaning node mask =>
    exact hr.stay hx rfl (l := []) rfl (List.forall_mem_nil _)
      (watchStages_cons_of_mask mask _).symm
  | retire watcher =>
    exact hr.stay hx (World.kept?_disposing _ _) (l := [.disposed n, .cleared n])
      (congrArg _ (World.history_disposing _ _)) (by simp [Event.OfWatch]) rfl
  | @beginWatch w g rt e effect =>
    refine hr.report (Option.isSome_of_eq_some effect) hx List.suffix_rfl fun k hk =>
      ⟨k, hk, rfl, fun _ hreport hpunctual => ?_⟩
    dsimp only at one'
    rw [watchStages_getting] at one' ⊢
    rw [List.eq_nil_of_length_eq_zero (Nat.le_zero.1 (Nat.le_of_succ_le_succ one'))] at hreport
    exact ⟨⟨(World.kept?_of_effect? effect).symm.trans hk, hreport⟩, hpunctual⟩
  | @advance w g s s' event hadv node =>
    have hn : (w.effect? n).isSome := node ▸ (hs.frames _ List.mem_cons_self).1
    have hh : w.history <:+ (w.note event).history := List.suffix_cons _ _
    cases hadv with
    | clean | cleaned =>
      exact hr.stay hx rfl (l := [_]) rfl (by simp [Event.OfWatch])
        ((watchStages_cons_of_mask rfl g).trans (watchStages_cons_of_mask rfl g).symm)
    | @got m job r =>
      obtain rfl : m = n := node
      refine hr.report hn hx hh fun k hk => ⟨k, hk, rfl, fun hfirst hreport hpunctual => ?_⟩
      rw [watchStages_getting] at hreport
      rw [watchStages_reporting]
      obtain ⟨hjob, hrests⟩ := hreport
      have hsettled := hrests.settled hfirst
      exact ⟨hsettled.owed hjob r, hpunctual.cons_got hsettled r⟩
    | @call m new old duties =>
      obtain rfl : m = n := node
      refine hr.report hn hx hh fun k hk => ⟨k, hk, rfl, fun _ hreport hpunctual => ?_⟩
      rw [watchStages_reporting] at hreport
      rw [watchStages_calling]
      exact ⟨hreport, hpunctual.cons nofun⟩
    | @called m new old duties =>
      obtain rfl : m = n := node
      refine hr.report hn hx hh fun k hk => ⟨k, hk, rfl, fun _ hreport hpunctual => ?_⟩
      rw [watchStages_calling] at hreport
      rw [watchStages_reporting]
      exact ⟨hreport.2, hpunctual.cons nofun⟩
  | @keep w g job duties follows =>
    have hn : (w.effect? n).isSome := (hs.frames _ List.mem_cons_self).1
    obtain ⟨e, he⟩ := Option.isSome_iff_exists.1 hn
    refine hr.report hn hx List.suffix_rfl fun k' hk' => ?_
    have hjob : job.kept? = some k' := by
      rw [World.kept?, World.effect?_modifyEffect, if_pos rfl, he] at hk'
      exact hk'
    obtain ⟨k, hk, himm⟩ := (follows e he).kept? hjob
    refine ⟨k, (World.kept?_of_effect? he).trans hk, himm, fun _ hreport hpunctual => ?_⟩
    rw [watchStages_reporting] at hreport
    rw [watchStages_reporting]
    obtain ⟨k₁, hk₁, -, howed⟩ := hreport
    obtain rfl := Option.some.inj (hk₁.symm.trans hjob)
    exact ⟨howed, hpunctual⟩
  | @endReport w g =>
    have hn : (w.effect? n).isSome := (hs.frames _ List.mem_cons_self).1
    refine hr.report hn hx List.suffix_rfl fun k hk =>
      ⟨k, hk, rfl, fun _ hreport hpunctual => ?_⟩
    dsimp only at one
    rw [watchStages_reporting] at one hreport
    rw [List.eq_nil_of_length_eq_zero (Nat.le_zero.1 (Nat.le_of_succ_le_succ one))]
    exact ⟨.inl hreport, hpunctual⟩
  | @drop w g s node mask =>
    have hn : (w.effect? n).isSome := node ▸ (hs.frames _ List.mem_cons_self).1
    refine hr.report hn hx List.suffix_rfl fun k hk =>
      ⟨k, hk, rfl, fun _ hreport hpunctual => ?_⟩
    dsimp only at one
    rw [watchStages_cons node mask] at one hreport
    rw [List.eq_nil_of_length_eq_zero (Nat.le_zero.1 (Nat.le_of_succ_le_succ one))]
    refine ⟨?_, hpunctual⟩
    -- What is interrupted is a call of the getter or of the callback.
    have hcode : s.isCode := call rfl s g rfl
    cases s with
    | cleaning | cleanup => cases mask
    | reporting => cases hcode
    | getting => exact hreport.2
    | calling => exact hreport.1

theorem Reaches.watchStages_le_one {settings : Settings} {hook : Hook} {c : Config}
    (h : Reaches (.start settings hook) c) (n : NodeId) : (watchStages n c.stack).length ≤ 1 :=
  calc
    (watchStages n c.stack).length ≤ c.stack.countP (Frame.runs n) := h.standing.1.watchStages_le.1
    _ = (c.world.isRunning n).toNat := (h.lives n).frames
    _ ≤ 1 := Bool.toNat_le _

theorem Reaches.reports {settings : Settings} {hook : Hook} {c : Config}
    (h : Reaches (.start settings hook) c) (n : NodeId) : c.Reports n := by
  induction h with
  | refl =>
    constructor
    · exact fun _ => ⟨rfl, rfl, List.not_mem_nil⟩
    · exact nofun
  | tail steps step ih =>
    exact step.reports (steps.sane (Config.start_sane settings hook)) steps.standing.2
      (steps.watchStages_le_one n) (Reaches.watchStages_le_one (steps.tail step) n) ih

/-- The run of the watch in which its getter has given the result, up to the next result, or to the
end. -/
def IsRunOf (n : NodeId) (h : List Event) (r : Result) (run past : List Event) : Prop :=
  gots n run = [] ∧ (h = run ++ .watchGot n r :: past ∨
    ∃ r', .watchGot n r' :: (run ++ .watchGot n r :: past) <:+ h)

/-- The calls of the callback of a watch are a chain without a gap. -/
structure Gapless (n : NodeId) (immediate : Bool) (h : List Event) : Prop where
  /-- Each call tells the result that the call before it has told. -/
  linked : (calls n h).IsChain fun later earlier => later.2 = some earlier.1
  /-- And another result than that. -/
  changed : ∀ c ∈ calls n h, ∀ old, c.2 = some old → old.same c.1 = false
  /-- The first call tells the first result, as the one before. -/
  first : immediate = false → ∀ c, (calls n h).getLast? = some c → c.2 = (gots n h).getLast?
  /-- That of an immediate watch tells it as the new one, and none before. -/
  immediate : immediate = true →
    (calls n h).getLast? = (gots n h).getLast?.map fun r => (r, none)
  /-- Each later run calls it once if the result is another than that of the run before, and not at
  all if it is the same. -/
  later : ∀ r run past previous, IsRunOf n h r run past → (gots n past).head? = some previous →
    if previous.same r then calls n run = [] else ∃ old, calls n run = [(r, some old)]

/-- What the callback has been called for, if it has been called for all results. -/
theorem Gapless.of_punctual {n : NodeId} {immediate : Bool} {h : List Event}
    (hcalls : calls n h = callsFor immediate (gots n h)) (hp : Punctual n immediate h) :
    Gapless n immediate h where
  linked := hcalls ▸ isChain_callsFor immediate (gots n h)
  changed c hc old hold := other_of_mem_callsFor (hcalls ▸ hc) hold
  first himm c hc := by
    subst himm
    rw [hcalls] at hc
    exact snd_of_getLast?_callsFor hc
  immediate himm := by
    subst himm
    rw [hcalls]
    exact getLast?_callsFor_immediate (gots n h)
  later r run past previous hrun hprevious := by
    obtain ⟨hquiet, hend⟩ := hrun
    have hsuffix : .watchGot n r :: past <:+ h := by
      rcases hend with rfl | ⟨r', hend⟩
      · exact List.suffix_append _ _
      · exact ((List.suffix_append _ _).trans (List.suffix_cons _ _)).trans hend
    have hbefore : calls n past = callsFor immediate (gots n past) := hp r past hsuffix
    have hafter : calls n (run ++ .watchGot n r :: past) =
        callsFor immediate (gots n (run ++ .watchGot n r :: past)) := by
      rcases hend with rfl | ⟨r', hend⟩
      · exact hcalls
      · exact hp r' _ hend
    obtain ⟨rs, hrs⟩ := List.head?_eq_some_iff.1 hprevious
    rw [calls_append, gots_append, hquiet, List.nil_append, calls_cons_got, gots_cons_got, hbefore,
      hrs] at hafter
    obtain ⟨k, hk⟩ := Option.isSome_iff_exists.1 (keptOf_isSome previous rs)
    rw [← Result.same_congr (same_of_keptOf hk)]
    split
    · next hsame =>
      rw [callsFor_cons_of_same hk hsame] at hafter
      simpa using hafter
    · next hother =>
      rw [callsFor_cons_of_other hk (Bool.eq_false_iff.2 hother), ← List.singleton_append] at hafter
      exact ⟨k, List.append_cancel_right hafter⟩

/-- In every program, the callback of a watch is called for each result that is another one than the
result before, and with both. What its getter or its callback throws makes no difference, nor do
runs that are skipped, unless the first call of an immediate watch throws: such a watch forgets the
first result. -/
theorem watch_reports_without_gap (settings : Settings) (hook : Hook) (depth : Nat)
    (es : List Expr) (n : NodeId) (k : Kept)
    (watch : (World.after settings hook depth es).kept? n = some k)
    (first : k.immediate → FirstReturns n (World.after settings hook depth es).history) :
    Gapless n k.immediate (World.after settings hook depth es).history := by
  obtain ⟨hreport, hpunctual⟩ :=
    ((reaches_after settings hook depth es).reports n).present k watch first
  refine .of_punctual ?_ hpunctual
  rcases hreport with hsettled | hfailed
  · exact hsettled.called
  · obtain ⟨r, hgots, hcalls⟩ := hfailed.once
    dsimp only at hgots hcalls
    rw [hgots, hcalls, hfailed.immediate]
    rfl

def watchOnce : List Expr :=
  withObject [.watch true (readProperty "x")
      (.cond (.apply .isNothing [.argument 0]) .nothing (.throw "broken")),
    writeProperty "x" (.literal .null), .apply .flush []]

theorem history_watchOnce : (World.after .standard .manual 3 watchOnce).history =
    [.flushEnded 0, .threw "broken", .watchCalled 0 (.value .null) (some .nothing),
      .watchGot 0 (.value .null), .saw 0 (.property 0 "x") (.value .null),
      .tracked 0 (.object 0) (.property "x"), .started 0, .cleared 0, .cleanedUp 0, .turnBegan 0 0,
      .roundBegan 0 [0], .flushBegan 0, .triggered (.object 0) .shape, .requested 0, .queued 0 0,
      .triggered (.object 0) (.property "x"), .wrote (.property 0 "x" none (some .null)),
      .finished 0, .watchReturned 0, .watchCalled 0 .nothing none, .watchGot 0 .nothing,
      .saw 0 (.property 0 "x") .nothing, .tracked 0 (.object 0) (.property "x"), .started 0,
      .cleared 0, .cleanedUp 0, .bound "o", .wrapped []] := by
  cbv

theorem watch_reports_without_gap_watchOnce :
    (World.after .standard .manual 3 watchOnce).kept? 0 = some ⟨true, false, some (.value .null)⟩ ∧
      FirstReturns 0 (World.after .standard .manual 3 watchOnce).history ∧
      Gapless 0 true (World.after .standard .manual 3 watchOnce).history := by
  have watch : (World.after .standard .manual 3 watchOnce).kept? 0 =
      some ⟨true, false, some (.value .null)⟩ := by cbv
  have first : FirstReturns 0 (World.after .standard .manual 3 watchOnce).history := by
    intro r past hs hcalls
    rw [history_watchOnce] at hs
    simp only [List.suffix_cons_iff, List.cons.injEq, reduceCtorEq, false_and, false_or,
      List.suffix_nil, or_false] at hs
    rcases hs with ⟨-, rfl⟩ | ⟨-, rfl⟩
    · simp
    · exact absurd rfl hcalls
  exact ⟨watch, first,
    watch_reports_without_gap .standard .manual 3 watchOnce 0 _ watch fun _ => first⟩

end Reactivity
