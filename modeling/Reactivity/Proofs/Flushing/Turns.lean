import Reactivity.Proofs.Flushing.Beats
import Reactivity.Proofs.Registration.Separation

/-!
The turn of an effect in a round. Whatever the program does in it, the function of the effect is
started once, or not at all if the effect is running further out already; and meanwhile no flush of
the runtime goes on.
-/

namespace Reactivity

def Event.isStart (n : NodeId) : Event → Bool
  | .started m => m == n
  | _ => false

/-- Whether a flush of the runtime goes on: it begins or ends, or is given up, or a round or a turn in
it begins. -/
def Event.isPace (rt : RuntimeId) : Event → Bool
  | .flushBegan rt' | .roundBegan rt' _ | .turnBegan rt' _ | .gaveUp rt' | .flushEnded rt' => rt' == rt
  | _ => false

theorem Event.isStart_of_not_beats {e : Event} (h : ¬ e.Beats) (n : NodeId) : e.isStart n = false := by
  cases e <;> first | rfl | exact absurd trivial h

theorem Event.isPace_of_not_beats {e : Event} (h : ¬ e.Beats) (rt : RuntimeId) :
    e.isPace rt = false := by
  cases e <;> first | rfl | exact absurd trivial h

namespace World

def startCount (w : World) (n : NodeId) : Nat :=
  w.history.countP (Event.isStart n)

def paceCount (w : World) (rt : RuntimeId) : Nat :=
  w.history.countP (Event.isPace rt)

theorem startCount_note (w : World) (e : Event) (n : NodeId) :
    (w.note e).startCount n = w.startCount n + if e.isStart n then 1 else 0 :=
  List.countP_cons

theorem paceCount_note (w : World) (e : Event) (rt : RuntimeId) :
    (w.note e).paceCount rt = w.paceCount rt + if e.isPace rt then 1 else 0 :=
  List.countP_cons

theorem runCount_modifyEffect (w : World) (n : NodeId) (f : Effect → Effect) :
    (w.modifyEffect n f).runCount n = (w.effect? n).elim 0 fun e => (f e).runCount := by
  rw [runCount, effect?_modifyEffect, if_pos rfl]
  cases w.effect? n <;> rfl

theorem runCount_of_pulse {w w' : World} {n : NodeId} (h : w'.pulse n = w.pulse n) :
    w'.runCount n = w.runCount n :=
  congrArg Prod.snd h

theorem isRunning_of_pulse {w w' : World} {n : NodeId} (h : w'.pulse n = w.pulse n) :
    w'.isRunning n = w.isRunning n :=
  congrArg Prod.fst h

theorem runCount_running (w : World) (n : NodeId) (rt : RuntimeId) :
    (w.running n rt).runCount n = w.runCount n := by
  have hp := ((Placid.clearedOf w n).trans (.pushContext _ rt (some n))).pulse n
  rw [← runCount_of_pulse hp]
  exact runCount_modifyEffect _ n _

theorem runCount_stopped (w : World) (n : NodeId) (rt : RuntimeId) :
    (w.stopped n rt).runCount n = w.runCount n :=
  runCount_modifyEffect w n _

theorem runCount_ran (w : World) {n : NodeId} (hn : (w.effect? n).isSome) (rt : RuntimeId) :
    (w.ran n rt).runCount n = w.runCount n + 1 := by
  obtain ⟨e, he⟩ := Option.isSome_iff_exists.1 hn
  have hrun : (w.ran n rt).runCount n =
      ((w.modifyEffect n fun e => { e with running := false }).effect? n).elim 0
        fun e => e.runCount + 1 :=
    runCount_modifyEffect _ n _
  rw [hrun, effect?_modifyEffect, if_pos rfl, runCount, he]
  rfl

/-- `w.Rests rt n w'`: the node is neither started nor does a run of it end, and no flush of the
runtime goes on. -/
structure Rests (w : World) (rt : RuntimeId) (n : NodeId) (w' : World) : Prop where
  pulse : w'.pulse n = w.pulse n
  flushing : (w.runtime rt).flushing → (w'.runtime rt).flushing
  starts : w'.startCount n = w.startCount n
  paces : w'.paceCount rt = w.paceCount rt

namespace Rests

variable {w w' w'' : World} {rt : RuntimeId} {n : NodeId}

theorem trans (h : w.Rests rt n w') (h' : w'.Rests rt n w'') : w.Rests rt n w'' where
  pulse := h'.pulse.trans h.pulse
  flushing hf := h'.flushing (h.flushing hf)
  starts := h'.starts.trans h.starts
  paces := h'.paces.trans h.paces

theorem of_placid (h : w.Placid w') (rt : RuntimeId) (n : NodeId) : w.Rests rt n w' := by
  obtain ⟨new, hn, he⟩ := h.past
  refine ⟨h.pulse n, fun hf => (h.flushing rt).trans hf, ?_, ?_⟩
  · rw [startCount, hn, List.countP_append, List.countP_eq_zero.2 fun e hm => ?_, Nat.zero_add]
    · rfl
    · simp [Event.isStart_of_not_beats (he e hm) n]
  · rw [paceCount, hn, List.countP_append, List.countP_eq_zero.2 fun e hm => ?_, Nat.zero_add]
    · rfl
    · simp [Event.isPace_of_not_beats (he e hm) rt]

theorem refl (w : World) (rt : RuntimeId) (n : NodeId) : w.Rests rt n w :=
  of_placid (.refl w) rt n

theorem note (w : World) {e : Event} (hs : e.isStart n = false) (hp : e.isPace rt = false) :
    w.Rests rt n (w.note e) where
  pulse := rfl
  flushing := id
  starts := by rw [startCount_note, hs]; rfl
  paces := by rw [paceCount_note, hp]; rfl

theorem elsewhere (w : World) {rt' : RuntimeId} (hrt : rt' ≠ rt) (f : Runtime → Runtime) :
    w.Rests rt n (w.modifyRuntime rt' f) where
  pulse := pulse_of_nodes rfl n
  flushing hf := by rwa [runtime_modifyRuntime, if_neg fun h => hrt h.1]
  starts := rfl
  paces := rfl

theorem queuedIn (w : World) (rt' : RuntimeId) (m : NodeId) : w.Rests rt n (w.queuedIn rt' m) where
  pulse := pulse_of_nodes (nodes_queuedIn w rt' m) n
  flushing := (Still.queuedIn w rt' m).flushing rt
  starts := by
    rw [startCount, startCount]
    rcases w.history_queuedIn rt' m with h | h <;> rw [h] <;> rfl
  paces := by
    rw [paceCount, paceCount]
    rcases w.history_queuedIn rt' m with h | h <;> rw [h] <;> rfl

theorem other (w : World) {m : NodeId} (hmn : m ≠ n) (f : Effect → Effect) :
    w.Rests rt n (w.modifyEffect m f) where
  pulse := w.pulse_modifyEffect m n fun h => absurd h hmn
  flushing := id
  starts := rfl
  paces := rfl

theorem running (w : World) {m : NodeId} (hmn : m ≠ n) (rt' : RuntimeId) :
    w.Rests rt n (w.running m rt') := by
  have hp := (Placid.clearedOf w m).trans (.pushContext _ rt' (some m))
  refine ((of_placid hp rt n).trans (other _ hmn _)).trans (note _ ?_ rfl)
  exact beq_eq_false_iff_ne.2 hmn

theorem stopped (w : World) {m : NodeId} (hmn : m ≠ n) (rt' : RuntimeId) :
    w.Rests rt n (w.stopped m rt') :=
  (other w hmn _).trans (of_placid (.popContext _ rt') rt n)

theorem ran (w : World) {m : NodeId} (hmn : m ≠ n) (rt' : RuntimeId) :
    w.Rests rt n (w.ran m rt') := by
  have hn : w.Rests rt n ((w.modifyEffect m fun e => { e with running := false }).note (.finished m)) :=
    (other w hmn _).trans (note _ rfl rfl)
  exact (hn.trans (other _ hmn _)).trans (of_placid (.popContext _ rt') rt n)

end Rests

end World

def Frame.awaits (n : NodeId) : Frame → Bool
  | .pending m => m == n
  | _ => false

/-- The frame would let the effect be run anew, or a flush of the runtime go on. -/
def Frame.Renews (rt : RuntimeId) (n : NodeId) : Frame → Prop
  | .created m => m = n
  | .flushing rt' | .round rt' (_ :: _) => rt' = rt
  | _ => False

/-- `c.InTurn rt n w`: the turn of an effect has come in the state `w`, and the program is in the
middle of what it does in it. -/
structure Config.InTurn (c : Config) (rt : RuntimeId) (n : NodeId) (w : World) : Prop where
  effect : (c.world.effect? n).isSome
  made : c.world.MadeBy rt n
  flushing : (c.world.runtime rt).flushing
  paces : c.world.paceCount rt = w.paceCount rt
  frames : ∀ f ∈ ongoing c.stack, ¬ f.Renews rt n
  starts : (ongoing c.stack).countP (Frame.awaits n) + c.world.startCount n ≤ w.startCount n + 1
  runs : (ongoing c.stack).countP (Frame.runs n) + c.world.runCount n + w.startCount n ≤
    c.world.startCount n + w.runCount n
  grown : w.runCount n ≤ c.world.runCount n
  running : c.world.isRunning n → w.isRunning n ∨ 0 < (ongoing c.stack).countP (Frame.runs n)
  busy : w.isRunning n → c.world.isRunning n ∧ c.world.startCount n = w.startCount n

namespace Config.InTurn

variable {w w₁ w₂ : World} {f : Frame} {g g' : List Frame} {u u' : Bool} {rt : RuntimeId} {n : NodeId}

/-- Steps by which the effect is not started, and by which no flush of the runtime goes on. -/
theorem rest (h : InTurn ⟨w₁, g, u⟩ rt n w) (he : w₁.Extends w₂) (hr : w₁.Rests rt n w₂)
    (frames : ∀ f ∈ ongoing g', f ∈ ongoing g ∨ ¬ f.Renews rt n)
    (awaits : (ongoing g').countP (Frame.awaits n) ≤ (ongoing g).countP (Frame.awaits n))
    (runs : (ongoing g').countP (Frame.runs n) = (ongoing g).countP (Frame.runs n)) :
    InTurn ⟨w₂, g', u'⟩ rt n w := by
  have hcount := World.runCount_of_pulse hr.pulse
  have hrunning := World.isRunning_of_pulse hr.pulse
  refine ⟨he.isSome_effect? h.effect, h.made.mono he, hr.flushing h.flushing, hr.paces.trans h.paces,
    fun f hf => (frames f hf).elim (h.frames f) id, ?_, ?_, ?_, ?_, ?_⟩
  · have hstarts := h.starts
    simp only [hr.starts] at hstarts ⊢
    omega
  · simpa only [hr.starts, runs, hcount] using h.runs
  · simpa only [hcount] using h.grown
  · simpa only [runs, hrunning] using h.running
  · simpa only [hr.starts, hrunning] using h.busy

theorem same (h : InTurn ⟨w₁, g, u⟩ rt n w) (he : w₁.Extends w₂) (hr : w₁.Rests rt n w₂)
    (frames : ongoing g' = ongoing g) : InTurn ⟨w₂, g', u'⟩ rt n w :=
  h.rest he hr (fun _ hf => .inl (frames ▸ hf)) (by rw [frames]) (by rw [frames])

/-- A frame comes to stand on the others, and what it is for is something else. -/
theorem push (h : InTurn ⟨w₁, g, u⟩ rt n w) (he : w₁.Extends w₂) (hr : w₁.Rests rt n w₂)
    (frames : ongoing g' = f :: ongoing g) (other : ¬ f.Renews rt n) (awaits : f.awaits n = false)
    (runs : f.runs n = false) : InTurn ⟨w₂, g', u'⟩ rt n w := by
  refine h.rest he hr (fun x hx => ?_) ?_ ?_
  · rw [frames] at hx
    exact (List.mem_cons.1 hx).elim (fun hx => .inr (hx ▸ other)) .inl
  · rw [frames, List.countP_cons_of_neg (by simp [awaits])]
  · rw [frames, List.countP_cons_of_neg (by simp [runs])]

theorem pop (h : InTurn ⟨w₁, g, u⟩ rt n w) (he : w₁.Extends w₂) (hr : w₁.Rests rt n w₂)
    (frames : ongoing g = f :: ongoing g') (runs : f.runs n = false) :
    InTurn ⟨w₂, g', u'⟩ rt n w := by
  refine h.rest he hr (fun x hx => .inl (frames ▸ List.mem_cons_of_mem f hx)) ?_ ?_
  · rw [frames]
    exact (List.sublist_cons_self f _).countP_le
  · rw [frames, List.countP_cons_of_neg (by simp [runs])]

theorem not_flushing (h : InTurn ⟨w₁, g, u⟩ rt n w) {rt' : RuntimeId}
    (hf : .flushing rt' ∈ ongoing g) : rt' ≠ rt :=
  fun hrt => h.frames _ hf hrt

theorem start (h : InTurn ⟨w₁, .pending n :: g, false⟩ rt n w) (idle : w₁.isRunning n = false)
    (rt' : RuntimeId) : InTurn ⟨w₁.running n rt', .running n rt' :: g, false⟩ rt n w := by
  have he := World.Extends.running w₁ n rt'
  have hawaits : (ongoing (.pending n :: g)).countP (Frame.awaits n) =
      (ongoing g).countP (Frame.awaits n) + 1 :=
    List.countP_cons_of_pos (by simp [Frame.awaits])
  have hruns : (ongoing (.running n rt' :: g)).countP (Frame.runs n) =
      (ongoing g).countP (Frame.runs n) + 1 :=
    List.countP_cons_of_pos (by simp [Frame.runs])
  have hruns₀ : (ongoing (.pending n :: g)).countP (Frame.runs n) =
      (ongoing g).countP (Frame.runs n) :=
    List.countP_cons_of_neg (by simp [Frame.runs])
  have hstart : (w₁.running n rt').startCount n = w₁.startCount n + 1 := by
    rw [World.startCount, World.startCount, World.history_running,
      List.countP_cons_of_pos (by simp [Event.isStart]),
      List.countP_cons_of_neg (by simp [Event.isStart])]
  have hcount := w₁.runCount_running n rt'
  have hstarts := h.starts
  have hruns₁ := h.runs
  simp only [hawaits, hruns₀] at hstarts hruns₁
  refine ⟨he.isSome_effect? h.effect, h.made.mono he, ?_, ?_, fun f hf => ?_, ?_, ?_, ?_, ?_, ?_⟩
  · have hs := (World.Placid.clearedOf w₁ n).trans (.pushContext _ rt' (some n))
    exact (hs.flushing rt).trans h.flushing
  · rw [← h.paces, World.paceCount, World.paceCount, World.history_running]
    rfl
  · rcases List.mem_cons.1 hf with rfl | hf
    · exact id
    · exact h.frames f (List.mem_cons_of_mem _ hf)
  · change (ongoing g).countP (Frame.awaits n) + (w₁.running n rt').startCount n ≤ _
    omega
  · simp only [hruns, hstart, hcount]
    omega
  · simpa only [hcount] using h.grown
  · exact fun _ => .inr (by simp only [hruns]; omega)
  · intro hb
    rw [(h.busy hb).1] at idle
    cases idle

theorem ended (h : InTurn ⟨w₁, g, u⟩ rt n w) {rt' : RuntimeId} (he : w₁.Extends w₂)
    (frames : ongoing g = .running n rt' :: ongoing g')
    (idle : w₂.isRunning n = false) (flushing : (w₁.runtime rt).flushing → (w₂.runtime rt).flushing)
    (starts : w₂.startCount n = w₁.startCount n) (paces : w₂.paceCount rt = w₁.paceCount rt)
    (count : w₁.runCount n ≤ w₂.runCount n ∧ w₂.runCount n ≤ w₁.runCount n + 1) :
    InTurn ⟨w₂, g', u'⟩ rt n w := by
  have hruns : (ongoing g).countP (Frame.runs n) = (ongoing g').countP (Frame.runs n) + 1 := by
    rw [frames, List.countP_cons_of_pos (by simp [Frame.runs])]
  have hawaits : (ongoing g).countP (Frame.awaits n) = (ongoing g').countP (Frame.awaits n) := by
    rw [frames, List.countP_cons_of_neg (by simp [Frame.awaits])]
  have hstarts := h.starts
  have hruns₁ := h.runs
  have hgrown := h.grown
  simp only [hawaits, hruns] at hstarts hruns₁ hgrown
  refine ⟨he.isSome_effect? h.effect, h.made.mono he, flushing h.flushing, paces.trans h.paces,
    fun f hf => h.frames f (frames ▸ List.mem_cons_of_mem _ hf), ?_, ?_, ?_, fun hr => ?_,
    fun hb => ?_⟩
  · simp only [starts]
    omega
  · simp only [starts]
    omega
  · exact Nat.le_trans hgrown count.1
  · rw [idle] at hr
    cases hr
  · -- An effect that was running when its turn came is not started, so there is no run to end.
    have hs := (h.busy hb).2
    simp only at hs
    omega

theorem ran (h : InTurn ⟨w₁, g, false⟩ rt n w) {m : NodeId} {rt' : RuntimeId}
    (frames : ongoing g = .running m rt' :: ongoing g') : InTurn ⟨w₁.ran m rt', g', false⟩ rt n w := by
  by_cases hmn : m = n
  · subst hmn
    have hcount := w₁.runCount_ran h.effect rt'
    refine h.ended (.ran ..) frames ?_ (fun hf => ?_) rfl rfl ⟨by omega, by omega⟩
    · exact eq_false_of_ne_true fun hr => ((w₁.isRunning_ran m rt' m).1 hr).2 rfl
    · exact (World.Unasking.ran w₁ m rt').flushing.trans hf
  · exact h.pop (.ran ..) (.ran w₁ hmn rt') frames (beq_eq_false_iff_ne.2 hmn)

theorem stopped (h : InTurn ⟨w₁, g, true⟩ rt n w) {m : NodeId} {rt' : RuntimeId}
    (frames : ongoing g = .running m rt' :: ongoing g') :
    InTurn ⟨w₁.stopped m rt', g', true⟩ rt n w := by
  by_cases hmn : m = n
  · subst hmn
    have hcount := w₁.runCount_stopped m rt'
    refine h.ended (.stopped ..) frames ?_ (fun hf => ?_) rfl rfl ⟨by omega, by omega⟩
    · exact eq_false_of_ne_true fun hr => ((w₁.isRunning_stopped m rt' m).1 hr).2 rfl
    · exact (World.Unasking.stopped w₁ m rt').flushing.trans hf
  · exact h.pop (.stopped ..) (.stopped w₁ hmn rt') frames (beq_eq_false_iff_ne.2 hmn)

end Config.InTurn

/-- A step in the turn of an effect does not let its function be started twice, nor a flush of the
runtime go on. -/
theorem Beats.inTurn {c c' : Config} (hb : Beats c c') (he : c.world.Extends c'.world)
    (hc : c.Separate) {rt : RuntimeId} {n : NodeId} {w : World} (h : c.InTurn rt n w) :
    c'.InTurn rt n w := by
  cases hb with
  | rest world frames => exact h.same he (.of_placid world rt n) frames
  | @enqueue w₁ w₂ g g' rt' m world _ _ frames =>
    exact h.same he ((World.Rests.of_placid world rt n).trans (.queuedIn w₂ rt' m)) frames
  | @compute w₁ w₂ g g' m memo world frames =>
    have hmn : m ≠ n := by
      rintro rfl
      rw [World.memo?_eq_none_of_effect? h.effect] at memo
      cases memo
    have hs : (Event.started m).isStart n = false := beq_eq_false_iff_ne.2 hmn
    exact h.same he ((World.Rests.of_placid world rt n).trans (.note w₂ hs rfl)) frames
  | @make w₁ w₂ g world =>
    refine h.push he (.of_placid world rt n) rfl (fun hn => ?_) rfl rfl
    exact absurd hn.symm (Nat.ne_of_lt (World.lt_of_effect? h.effect))
  | @leave w₁ w₂ f g g' u world left frames =>
    refine h.pop he (.of_placid world rt n) frames ?_
    cases f <;> first | rfl | exact left.elim
  | @start w₁ f g m rt' idle turn =>
    by_cases hmn : m = n
    · subst hmn
      rcases turn with rfl | rfl
      · exact h.start idle rt'
      · exact absurd rfl (h.frames (.created m) List.mem_cons_self)
    · have hm : (m == n) = false := beq_eq_false_iff_ne.2 hmn
      have hpop : Config.InTurn ⟨w₁, g, false⟩ rt n w := by
        rcases turn with rfl | rfl
        · exact h.pop (.refl w₁) (.refl w₁ rt n) (f := .pending m) rfl rfl
        · exact h.pop (.refl w₁) (.refl w₁ rt n) (f := .created m) rfl rfl
      exact hpop.push he (.running w₁ hmn rt') (f := .running m rt') rfl id rfl hm
  | finish frames => exact h.ran frames
  | abandon => exact h.stopped rfl
  | @beginFlush w₁ g rt' _ idle =>
    have hrt : rt' ≠ rt := by
      rintro rfl
      exact absurd (h.flushing.symm.trans idle) (by simp)
    have hr : w₁.Rests rt n (w₁.flushBegun rt') :=
      (World.Rests.note w₁ (e := .flushBegan rt') rfl (beq_eq_false_iff_ne.2 hrt)).trans
        (.elsewhere _ hrt _)
    exact h.push he hr (f := .flushing rt') rfl hrt rfl rfl
  | @beginRound w₁ g rt' =>
    have hrt : rt' ≠ rt := h.not_flushing List.mem_cons_self
    have hr : w₁.Rests rt n (w₁.roundBegun rt') :=
      (World.Rests.elsewhere w₁ hrt _).trans (.note _ rfl (beq_eq_false_iff_ne.2 hrt))
    refine h.push he hr (f := .round rt' (w₁.queue rt')) rfl (fun hf => ?_) rfl rfl
    cases hq : w₁.queue rt' with
    | nil =>
      rw [hq] at hf
      exact hf
    | cons m batch =>
      rw [hq] at hf
      exact hrt hf
  | @giveUp w₁ g g' rt' frames =>
    have hmem : .flushing rt' ∈ ongoing g := by
      rcases frames with hf | hf <;> rw [hf] <;> simp
    have hrt := h.not_flushing hmem
    have hr : w₁.Rests rt n (w₁.gaveUp rt') :=
      (World.Rests.elsewhere w₁ hrt _).trans (.note _ rfl (beq_eq_false_iff_ne.2 hrt))
    rcases frames with hf | hf
    · exact h.pop he hr (f := .round rt' []) hf rfl
    · exact h.same he hr hf.symm
  | @skipTurn w₁ g rt' m batch =>
    have hrt : rt' ≠ rt := h.frames (.round rt' (m :: batch)) List.mem_cons_self
    have hpop : Config.InTurn ⟨w₁, g, false⟩ rt n w :=
      h.pop (.refl w₁) (.refl w₁ rt n) (f := .round rt' (m :: batch)) rfl rfl
    refine hpop.push he (.refl w₁ rt n) (f := .round rt' batch) rfl (fun hf => ?_) rfl rfl
    cases batch <;> exact absurd hf (by first | exact id | exact hrt)
  | @beginTurn w₁ g rt' m batch =>
    have hrt : rt' ≠ rt := h.frames (.round rt' (m :: batch)) List.mem_cons_self
    have hmn : m ≠ n := by
      rintro rfl
      exact hrt ((hc.frames _ List.mem_cons_self m List.mem_cons_self).unique h.made)
    have hr : w₁.Rests rt n (w₁.note (.turnBegan rt' m)) :=
      .note w₁ rfl (beq_eq_false_iff_ne.2 hrt)
    have hpop : Config.InTurn ⟨w₁, g, false⟩ rt n w :=
      h.pop (.refl w₁) (.refl w₁ rt n) (f := .round rt' (m :: batch)) rfl rfl
    have hround : Config.InTurn ⟨w₁.note (.turnBegan rt' m), .round rt' batch :: g, false⟩ rt n w := by
      refine hpop.push he hr (f := .round rt' batch) rfl (fun hf => ?_) rfl rfl
      cases batch <;> exact absurd hf (by first | exact id | exact hrt)
    exact hround.push (.refl _) (.refl _ rt n) (f := .pending m) rfl id
      (beq_eq_false_iff_ne.2 hmn) rfl
  | @endFlush w₁ g rt' u =>
    have hrt : rt' ≠ rt := h.not_flushing List.mem_cons_self
    have hr : w₁.Rests rt n (w₁.flushEnded rt') :=
      (World.Rests.elsewhere w₁ hrt _).trans (.note _ rfl (beq_eq_false_iff_ne.2 hrt))
    exact h.pop he hr (f := .flushing rt') rfl rfl

theorem Reaches.inTurn {c c' : Config} (h : Reaches c c') (hs : c.Sane) (hm : c.world.Mirrored)
    (hc : c.Separate) {rt : RuntimeId} {n : NodeId} {w : World} (hi : c.InTurn rt n w) :
    c'.world.Mirrored ∧ c'.Separate ∧ c'.InTurn rt n w := by
  induction h with
  | refl => exact ⟨hm, hc, hi⟩
  | tail steps step ih =>
    obtain ⟨hm', hc', hi'⟩ := ih
    have hs' := steps.sane hs
    exact ⟨step.mirrored hs' hm', step.separate hs' hm' hc',
      (step.beats hs').inTurn step.extends hc' hi'⟩

/-- A turn of an effect in a round: the states in which it begins and is over, and whether it has
come to its end. -/
structure Turn where
  effect : NodeId
  before : World
  outcome : Except Interrupt Unit
  after : World

/-- In a turn no other turn, round or flush of the runtime takes place, and the function of the effect
is started once at most. If the effect is running further out already, it is left to that run;
otherwise its function is started and returns, unless something interrupts the turn. -/
structure Turn.Proper (rt : RuntimeId) (t : Turn) : Prop where
  alone : t.after.paceCount rt = t.before.paceCount rt + 1
  once : t.after.startCount t.effect ≤ t.before.startCount t.effect + 1
  busy : t.before.isRunning t.effect → t.after.startCount t.effect = t.before.startCount t.effect ∧
    t.after.runCount t.effect = t.before.runCount t.effect
  idle : t.outcome = .ok () → t.before.isRunning t.effect = false →
    t.after.startCount t.effect = t.before.startCount t.effect + 1 ∧
      t.after.runCount t.effect = t.before.runCount t.effect + 1

namespace Config.InTurn

variable {w w' : World} {g : List Frame} {u : Bool} {rt : RuntimeId} {n : NodeId}

theorem atEnd (h : InTurn ⟨w', .round rt [] :: .beyond :: g, u⟩ rt n w) :
    w'.paceCount rt = w.paceCount rt ∧ w'.startCount n ≤ w.startCount n + 1 ∧
      (w.isRunning n → w'.startCount n = w.startCount n ∧ w'.runCount n = w.runCount n) := by
  have hstarts := h.starts
  have hruns := h.runs
  have hgrown := h.grown
  simp only [ongoing, List.countP_cons, List.countP_nil, Frame.awaits, Frame.runs] at hstarts hruns
  simp only at hgrown
  refine ⟨h.paces, by omega, fun hb => ?_⟩
  have hs := (h.busy hb).2
  simp only at hs
  exact ⟨hs, by omega⟩

theorem returned {s : List Frame} (h : InTurn ⟨w', s, false⟩ rt n w)
    (frames : ongoing s = [.running n rt, .round rt []]) :
    (w'.ran n rt).startCount n = w.startCount n + 1 ∧
      (w'.ran n rt).runCount n = w.runCount n + 1 := by
  have hstarts := h.starts
  have hruns := h.runs
  have hgrown := h.grown
  simp only [frames, List.countP_cons, List.countP_nil, Frame.awaits, Frame.runs, beq_self_eq_true,
    if_true] at hstarts hruns
  simp only at hgrown
  have hran : (w'.ran n rt).startCount n = w'.startCount n := rfl
  have hcount := w'.runCount_ran h.effect rt
  omega

end Config.InTurn

/-- The turn of an effect has come, and what lies further out than the round is not looked at, so that
nothing of it can go on before the turn is over. -/
def Config.inTurn (w : World) (n : NodeId) (rt : RuntimeId) (g : List Frame) : Config :=
  ⟨w, .pending n :: .round rt [] :: .beyond :: g, false⟩

section Turn

variable {settings : Settings} {hook : Hook} {w w' : World} {g : List Frame} {rt : RuntimeId}
variable {n : NodeId} {batch : List NodeId}

theorem Config.Sane.inTurn (h : Config.Sane ⟨w, .pending n :: .round rt batch :: g, false⟩) :
    (Config.inTurn w n rt g).Sane where
  world := h.world
  context := h.context
  frames f hf := by
    simp only [Config.inTurn, List.mem_cons] at hf
    rcases hf with rfl | rfl | rfl | hf
    · exact h.frames _ List.mem_cons_self
    · exact ⟨(h.frames _ (List.mem_cons_of_mem _ List.mem_cons_self)).1, by simp⟩
    · trivial
    · exact h.frames f (List.mem_cons_of_mem _ (List.mem_cons_of_mem _ hf))

theorem Config.Separate.inTurn (h : Config.Separate ⟨w, .pending n :: .round rt batch :: g, false⟩) :
    (Config.inTurn w n rt g).Separate where
  queue := h.queue
  past := h.past
  frames f hf := by
    simp only [Config.inTurn, List.mem_cons] at hf
    rcases hf with rfl | rfl | rfl | hf
    · trivial
    · exact nofun
    · trivial
    · exact h.frames f (List.mem_cons_of_mem _ (List.mem_cons_of_mem _ hf))
  turns := by
    obtain ⟨made, -, hturns⟩ := h.turns
    refine ⟨?_, .push nofun (.push nofun hturns)⟩
    rintro m rt' batch' s ⟨⟩ ⟨⟩
    exact made n rt batch g rfl rfl

theorem Config.InTurn.start_turn (effect : (w.effect? n).isSome) (made : w.MadeBy rt n)
    (flushing : (w.runtime rt).flushing) : (Config.inTurn w n rt g).InTurn rt n w := by
  refine ⟨effect, made, flushing, rfl, ?_, ?_, ?_, Nat.le_refl _, .inl, fun hb => ⟨hb, rfl⟩⟩
  · simp [Config.inTurn, ongoing, Frame.Renews]
  · simp [Config.inTurn, ongoing, Frame.awaits, Nat.add_comm]
  · simp [Config.inTurn, ongoing, Frame.runs, Nat.add_comm]

/-- The runtime whose round the machine is in the middle of is being flushed. -/
theorem Reaches.flushing_of_round (h : Reaches (.start settings hook)
    ⟨w, .round rt batch :: .flushing rt :: g, false⟩) : (w.runtime rt).flushing := by
  have hcount := (h.asks rt).count
  have hflushes : flushes (.round rt batch :: .flushing rt :: g) = rt :: flushes g := rfl
  rw [hflushes, List.count_cons_self] at hcount
  by_contra hf
  simp [hf] at hcount

theorem Reaches.proper_turn (h : Reaches (.start settings hook)
      ⟨w, .round rt (n :: batch) :: .flushing rt :: g, false⟩)
    (live : w.isDisposed n = false) {depth : Nat} {o : Except Interrupt Unit}
    (hrun : (runEffect (kernel depth) rt n).run.run (w.note (.turnBegan rt n)) = (o, w')) :
    Turn.Proper rt ⟨n, w, o, w'⟩ := by
  have hturn := h.tail (.beginTurn live)
  have hs := hturn.sane (Config.start_sane settings hook)
  have made := (h.separate.frames _ List.mem_cons_self n List.mem_cons_self).mono (.note w (.turnBegan rt n))
  have hin : (Config.inTurn (w.note (.turnBegan rt n)) n rt (.flushing rt :: g)).InTurn rt n
      (w.note (.turnBegan rt n)) :=
    .start_turn (hs.frames _ List.mem_cons_self) made h.flushing_of_round
  have stays {c : Config} (hc : Reaches (.inTurn (w.note (.turnBegan rt n)) n rt (.flushing rt :: g)) c) :
      c.InTurn rt n (w.note (.turnBegan rt n)) :=
    (hc.inTurn hs.inTurn hturn.mirrored hturn.separate.inTurn hin).2.2
  have hk : (kernel depth).Sound
      (Reaches (.inTurn (w.note (.turnBegan rt n)) n rt (.flushing rt :: g))) :=
    Kernel.sound (.reaches hs.inTurn) (fun _ _ _ => ⟨_, rfl, .inl rfl⟩) depth
  have valid : rt < w.runtimes.size := hs.inTurn.frames (.flushing rt) (by simp [Config.inTurn])
  have hruns : Runs _ (.pending n :: .round rt [] :: .beyond :: .flushing rt :: g) _ _
      (runEffect (kernel depth) rt n) _ (w.note (.turnBegan rt n)) :=
    hk.runs_runEffect trivial valid
  have hends := hruns .refl
  rw [hrun] at hends
  obtain ⟨u, hover⟩ : ∃ u, Config.InTurn
      ⟨w', .round rt [] :: .beyond :: .flushing rt :: g, u⟩ rt n (w.note (.turnBegan rt n)) := by
    cases o with
    | error i => exact ⟨true, stays hends.1⟩
    | ok => exact ⟨false, stays hends.1⟩
  obtain ⟨paces, starts, busy⟩ := hover.atEnd
  refine ⟨?_, starts, busy, fun ho idle => ?_⟩
  · rw [paces, World.paceCount_note]
    simp [Event.isPace]
  · subst ho
    rcases hends.2.2 with hd | hrun
    · exact absurd (live.symm.trans hd) (by simp)
    cases hrun with
    | ran hreach frames =>
      refine (stays hreach).returned ?_
      rcases frames with rfl | rfl <;> rfl
    | @busy w₁ e hreach effect running =>
      have hbusy : w₁.isRunning n := by simp [World.isRunning, effect, running]
      rcases (stays hreach).running hbusy with hb | hb
      · exact absurd (idle.symm.trans hb) (by simp)
      · simp [ongoing, Frame.runs] at hb

end Turn

end Reactivity
