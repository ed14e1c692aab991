import Reactivity.Proofs.Registration.Cleaning

namespace Reactivity

/-- A cleanup of the effect is being called, and what runs inside the call is among what was started
since. -/
def Sheltered (n : NodeId) (since : List Event) (g : List Frame) : Prop :=
  ∃ above rt c left below, g = above ++ .amid (.cleanup n rt c left) :: below ∧
    ∀ m ∈ actives above, .started m ∈ since

/-- What a step does to the stack when the events are those that it adds to the past. -/
inductive Turnover (new : List Event) : List Frame → List Frame → Prop
  /-- What runs in the frames on top did so before or has just been started. -/
  | swap (above above' g : List Frame) (quiet : ∀ f ∈ above, f.isCalling = false)
    (active : ∀ m ∈ actives above', m ∈ actives above ∨ .started m ∈ new) :
    Turnover new (above ++ g) (above' ++ g)
  | returned {n : NodeId} {rt : RuntimeId} {c : Closure} {left : List Closure} {g : List Frame}
    (h : .cleanupReturned n c ∈ new) :
    Turnover new (.amid (.cleanup n rt c left) :: g) (.amid (.cleaning n rt left) :: g)
  | abandoned {n : NodeId} {rt : RuntimeId} {c : Closure} {left : List Closure} {g : List Frame}
    (h : new = []) : Turnover new (.amid (.cleanup n rt c left) :: g) g

/-- Unless one of the cleanups of the effect has not returned, what runs inside a call of one was
started since. -/
def Config.Shelters (c : Config) (n : NodeId) : Prop :=
  AllReturn n (doneFor n c.stack) c.world.history → ∀ since f old,
    c.world.history = since ++ .cleanupStarted n f :: old →
      (∀ f', .cleanupReturned n f' ∉ since) → Sheltered n since c.stack

/-- While a cleanup of the effect is called, what was running before is not registered on a thing of
its runtime. -/
def World.CleansUntracked (w : World) (n : NodeId) : Prop :=
  ∀ m x key since f old,
    .tracked m x key :: (since ++ .cleanupStarted n f :: old) <:+ w.history →
      (∀ f', .cleanupReturned n f' ∉ since) → w.MadeBy (w.owner x) n → .started m ∈ since

theorem actives_append (g g' : List Frame) : actives (g ++ g') = actives g ++ actives g' := by
  induction g with
  | nil => rfl
  | cons f g ih => cases f <;> first | exact ih | exact congrArg _ ih

theorem suffix_of_suffix_append {α : Type} {a : α} {old l : List α} (new : List α)
    (h : a :: old <:+ new ++ l) (ha : a ∉ new) : a :: old <:+ l := by
  induction new with
  | nil => exact h
  | cons b new ih =>
    rw [List.mem_cons, not_or] at ha
    rcases List.suffix_cons_iff.1 h with h | h
    · exact absurd (List.cons.inj h).1 ha.1
    · exact ih h ha.2

namespace Turnover

variable {new : List Event} {f f' : Frame} {g : List Frame}

theorem refl (g : List Frame) : Turnover new g g :=
  .swap [] [] g (List.forall_mem_nil _) (List.forall_mem_nil _)

theorem push (hf : actives [f] = []) : Turnover new g (f :: g) :=
  .swap [] [f] g (List.forall_mem_nil _) (hf ▸ List.forall_mem_nil _)

theorem pop (hf : f.isCalling = false) : Turnover new (f :: g) g :=
  .swap [f] [] g (List.forall_mem_singleton.2 hf) (List.forall_mem_nil _)

theorem replace (hf : f.isCalling = false) (hf' : actives [f'] = []) :
    Turnover new (f :: g) (f' :: g) :=
  .swap [f] [f'] g (List.forall_mem_singleton.2 hf) (hf' ▸ List.forall_mem_nil _)

end Turnover

theorem Step.turnover {c c' : Config} (h : Step c c') :
    ∃ new, c'.world.history = new ++ c.world.history ∧ Turnover new c.stack c'.stack := by
  obtain ⟨new, hh⟩ := h.extends.history
  have stay : c'.stack = c.stack → ∃ new, c'.world.history = new ++ c.world.history ∧
      Turnover new c.stack c'.stack :=
    fun hg => ⟨new, hh.symm, hg ▸ .refl _⟩
  cases h with
  | aside _ | track _ _ _ _ _ | see _ _ _ _ _ _ _ | newObject _ _ _ | newArray _ _ _
  | resolveObject _ _ | resolveArray _ _ | schedule _ _ _ _ _ _ | markDirty _ _ _ | newMemo _ _ _
  | addCleanup _ _ _ _ _ _ | retire _ _ | postpone _ _ _ | newRuntime _ | throw _ | exhaust _
  | resume => exact stay rfl
  | write _ _ _ _ | beginChange _ _ _ _ | markClean _ _ _ _ | reuse _ _ _ _ _
  | newEffect _ _ _ _ _ | newStore _ _ _ | beginCleaning _ | beginWatch _ _ | watched _ _ _
  | dispose _ _ _ _ _ | mask _ _ _ | beginPass _ _ _ _ | beginFlush _ _ _ _ _ | beginRound _ =>
    exact ⟨new, hh.symm, .push rfl⟩
  | abandonChange | written | told | endCompute _ _ _ | abandonCompute | endReading _ _
  | endCleaning | skipPending _ | clearRunning _ _ | endRun _ | endReport | abandonRun | unmask
  | settle _ | forgo _ | endCall | endRound | endFlush _ => exact ⟨new, hh.symm, .pop rfl⟩
  | endChange _ _ | tellDisposed _ | tellQueued _ _ | tellEffect _ _ | tellDirty _ _ | keep _ _ _
  | prime _ _ | skipPass _ _ _ | watchPostpone _ _ _ | passOver _ | endPass | takeUp _ _ _ | greet _ _
  | skipTurn _ => exact ⟨new, hh.symm, .replace rfl rfl⟩
  | subscribe _ _ _ _ =>
    exact ⟨new, hh.symm, .swap [] [_, _] _ (List.forall_mem_nil _) (List.forall_mem_nil _)⟩
  | trigger | tellClean _ _ | watchPass _ _ _ _ | beginCall _ _ _ | beginTurn _ =>
    exact ⟨new, hh.symm, .swap [_] [_, _] _ (List.forall_mem_singleton.2 rfl)
      (List.forall_mem_nil _)⟩
  | endWatch _ =>
    exact ⟨new, hh.symm, .swap [_, _] [] _ (List.forall_mem_cons.2 ⟨rfl, by simp [Frame.isCalling]⟩)
      (List.forall_mem_nil _)⟩
  | @beginRun w g n rt f e _ _ _ turn _ =>
    refine ⟨[.started n, .cleared n], w.history_running n rt, .swap [f] [.running n rt] g ?_ ?_⟩
    · rcases turn with ⟨rfl, -⟩ | ⟨rfl, -⟩ <;> exact List.forall_mem_singleton.2 rfl
    · simp [actives]
  | @beginCompute w g n m _ _ _ _ =>
    have hh := (w.trackedIn m.runtime (.memo n) .value).history_computing n m.runtime
    rw [World.history_trackedIn] at hh
    refine ⟨_ :: _ :: _, hh, .swap [] [_, _] g (List.forall_mem_nil _) ?_⟩
    simp [actives]
  | advance h =>
    cases h with
    | cleaned => exact ⟨[_], rfl, .returned List.mem_cons_self⟩
    | _ => exact ⟨[_], rfl, .replace rfl rfl⟩
  | @abandonCleaning w g s rt mask =>
    cases s with
    | cleaning => exact ⟨[], rfl, .pop rfl⟩
    | cleanup => exact ⟨[], rfl, .abandoned rfl⟩
    | _ => cases mask
  | @drop w g f droppable =>
    refine ⟨[], rfl, .pop ?_⟩
    cases f with
    | amid s =>
      cases s with
      | cleanup => cases droppable
      | _ => rfl
    | _ => rfl
  | giveUp _ frames =>
    rcases frames with rfl | ⟨rfl, -⟩
    · exact ⟨new, hh.symm, .pop rfl⟩
    · exact ⟨new, hh.symm, .refl _⟩

theorem Sheltered.turnover {n : NodeId} {since new : List Event} {g g' : List Frame}
    (h : Sheltered n since g) (ht : Turnover new g g') :
    Sheltered n (new ++ since) g' ∨ (∃ c, .cleanupReturned n c ∈ new) ∨
      new = [] ∧ ∃ rt c left, g = .amid (.cleanup n rt c left) :: g' := by
  obtain ⟨above, rt, c, left, below, hg, hactive⟩ := h
  cases ht with
  | swap top top' g quiet active =>
    rcases List.append_eq_append_iff.1 hg with ⟨above', rfl, rfl⟩ | ⟨top₂, rfl, hbelow⟩
    · refine .inl ⟨top' ++ above', rt, c, left, below, by simp, fun m hm => ?_⟩
      rw [actives_append] at hactive hm
      rcases List.mem_append.1 hm with hm | hm
      · rcases active m hm with hm | hm
        · exact List.mem_append_right _ (hactive m (List.mem_append_left _ hm))
        · exact List.mem_append_left _ hm
      · exact List.mem_append_right _ (hactive m (List.mem_append_right _ hm))
    · cases top₂ with
      | nil =>
        refine .inl ⟨top', rt, c, left, below, congrArg _ hbelow.symm, fun m hm => ?_⟩
        rcases active m hm with hm | hm
        · exact List.mem_append_right _ (hactive m (by simpa [actives_append, actives] using hm))
        · exact List.mem_append_left _ hm
      | cons f top₂ =>
        obtain ⟨rfl, -⟩ := List.cons.inj hbelow
        cases quiet (.amid (.cleanup n rt c left)) (by simp)
  | @returned m rt' c' left' g hreturned =>
    cases above with
    | nil =>
      cases hg
      exact .inr (.inl ⟨c, hreturned⟩)
    | cons f above =>
      obtain ⟨rfl, rfl⟩ := List.cons.inj hg
      exact .inl ⟨_ :: above, rt, c, left, below, rfl,
        fun m hm => List.mem_append_right _ (hactive m hm)⟩
  | @abandoned m rt' c' left' g hnew =>
    cases above with
    | nil =>
      cases hg
      exact .inr (.inr ⟨hnew, rt, c, left, rfl⟩)
    | cons f above =>
      obtain ⟨rfl, rfl⟩ := List.cons.inj hg
      exact .inl ⟨above, rt, c, left, below, rfl,
        fun m hm => List.mem_append_right _ (hactive m hm)⟩

section Steps

variable {n : NodeId} {c c' : Config}

theorem Acts.called (h : Acts n c c') {f : Closure} {old : List Event}
    (hs : .cleanupStarted n f :: old <:+ c'.world.history) :
    .cleanupStarted n f :: old <:+ c.world.history ∨
      old = c.world.history ∧ Sheltered n [] c'.stack := by
  have plain (l : List Event) (hh : c'.world.history = l ++ c.world.history)
      (hl : .cleanupStarted n f ∉ l) : .cleanupStarted n f :: old <:+ c.world.history :=
    suffix_of_suffix_append l (hh ▸ hs) hl
  cases h with
  | leave world | ended world =>
    obtain ⟨new, hh, hnew, -⟩ := world.past
    exact .inl (plain new hh fun he => hnew _ he rfl)
  | make _ _ _ _ _ _ history => exact .inl (history ▸ hs)
  | addCleanup | cleanedUp | turn | endCleaning => exact .inl (plain [_] rfl (by simp))
  | start => exact .inl (plain [_, _] (World.history_running ..) (by simp))
  | clean | abandonCleaning | beginWatch | keep | endReport | drop => exact .inl hs
  | dispose => exact .inl (plain [_] (World.history_disposing ..) (by simp))
  | retire => exact .inl (plain [_, _] (congrArg _ (World.history_disposing ..)) (by simp))
  | @advance w g s s' e hadv node =>
    rcases List.suffix_cons_iff.1 hs with heq | hs
    · obtain ⟨he, rfl⟩ := List.cons.inj heq
      subst he
      cases hadv
      exact .inr ⟨rfl, [], _, _, _, g, rfl, List.forall_mem_nil _⟩
    · exact .inl hs

theorem Acts.allReturn (h : Acts n c c') (hs : c.Sane) (ht : c.Tended n)
    (hr : AllReturn n (doneFor n c'.stack) c'.world.history) :
    AllReturn n (doneFor n c.stack) c.world.history := by
  have plain (l : List Event) (hh : c'.world.history = l ++ c.world.history)
      (hl : ∀ e ∈ l, ¬ e.Tends n)
      (count : (doneFor n c'.stack).countP Frame.isCalling =
        (doneFor n c.stack).countP Frame.isCalling) :
      AllReturn n (doneFor n c.stack) c.world.history := by
    rw [hh, AllReturn.append hl, AllReturn, count] at hr
    exact hr
  have amid {s s' : Stage} {g : List Frame} (hn : s.node = n) (hn' : s'.node = n)
      (hs : (Frame.amid s).isCalling = false) (hs' : (Frame.amid s').isCalling = false) :
      (doneFor n (.amid s :: g)).countP Frame.isCalling =
        (doneFor n (.amid s' :: g)).countP Frame.isCalling := by
    rw [doneFor_amid hn, doneFor_amid hn', countP_cons_quiet hs, countP_cons_quiet hs']
  have amid_cons {s : Stage} (hn : s.node = n) (hs : (Frame.amid s).isCalling = false)
      (g : List Frame) : (doneFor n (.amid s :: g)).countP Frame.isCalling =
        (doneFor n g).countP Frame.isCalling := by
    rw [doneFor_amid hn, countP_cons_quiet hs]
  have run {f : Frame} (hf : f.runsFor n) (g : List Frame) :
      (doneFor n (f :: g)).countP Frame.isCalling = (doneFor n g).countP Frame.isCalling := by
    rw [doneFor_run hf]
    exact countP_cons_quiet (by cases f <;> first | rfl | cases hf) _
  cases h with
  | leave world frames =>
    obtain ⟨new, hh, hnew, -⟩ := world.past
    exact plain new hh (fun e he ht => hnew e he ht.isAbout) (congrArg _ frames)
  | @ended w w' f g g' u u' world runs frames =>
    obtain ⟨new, hh, hnew, -⟩ := world.past
    refine plain new hh (fun e he ht => hnew e he ht.isAbout) ?_
    dsimp only
    rw [frames, countP_cons_quiet (by cases f <;> first | rfl | cases runs)]
  | make _ _ _ _ _ _ history =>
    exact plain [] history (List.forall_mem_nil _) (run (f := .created n) (beq_self_eq_true n) _)
  | addCleanup => exact hr
  | cleanedUp => exact plain [_] rfl (by simp [Event.Tends]) rfl
  | retire =>
    exact plain [_, _] (congrArg _ (World.history_disposing ..)) (by simp [Event.Tends]) rfl
  | turn =>
    exact plain [_] rfl (by simp [Event.Tends]) (run (f := .pending n) (beq_self_eq_true n) _)
  | @start w f g rt turn =>
    refine plain [_, _] (World.history_running ..) (by simp [Event.Tends]) ?_
    have hf : f.runsFor n := by rcases turn with rfl | rfl <;> exact beq_self_eq_true n
    exact (run (f := .running n rt) (beq_self_eq_true n) g).trans (run hf g).symm
  | clean => exact plain [] rfl (List.forall_mem_nil _) (amid_cons rfl rfl _)
  | dispose =>
    exact plain [_] (World.history_disposing ..) (by simp [Event.Tends]) (amid_cons rfl rfl _)
  | endCleaning => exact plain [_] rfl (by simp [Event.Tends]) (amid_cons rfl rfl _).symm
  | @abandonCleaning w g s rt node mask =>
    cases s with
    | cleaning => exact plain [] rfl (List.forall_mem_nil _) (amid_cons node rfl _).symm
    | @cleanup m rt' f left =>
      obtain rfl : m = n := node
      obtain ⟨p, hp⟩ : ∃ p, w.plan m = some p := by
        obtain ⟨e, he⟩ := Option.isSome_iff_exists.1 (hs.frames _ List.mem_cons_self).1
        exact ⟨_, World.plan_of_effect? he⟩
      have htallied := (ht.present p hp).2
      dsimp only at htallied
      rw [doneFor_amid (n := m) (s := .cleanup m rt' f left) rfl] at htallied
      exact absurd hr htallied.not_allReturn
    | _ => cases mask
  | beginWatch => exact plain [] rfl (List.forall_mem_nil _) (amid_cons rfl rfl _)
  | keep => exact plain [] rfl (List.forall_mem_nil _) (amid rfl rfl rfl rfl)
  | endReport => exact plain [] rfl (List.forall_mem_nil _) (amid_cons rfl rfl _).symm
  | @drop w g s node mask =>
    refine plain [] rfl (List.forall_mem_nil _) (amid_cons node ?_ _).symm
    cases s <;> first | rfl | cases mask
  | @advance w g s s' e hadv node =>
    have node' : s'.node = n := hadv.node_eq.trans node
    cases hadv with
    | clean =>
      dsimp only at hr ⊢
      rw [doneFor_amid node'] at hr
      rw [doneFor_amid node]
      obtain rfl := node
      exact hr.of_call
    | cleaned =>
      dsimp only at hr ⊢
      rw [doneFor_amid node'] at hr
      rw [doneFor_amid node]
      obtain rfl := node
      exact hr.of_return
    | got | call | called => exact plain [_] rfl (by simp [Event.Tends]) (amid node' node rfl rfl)

section Reads

variable {m : NodeId} {x : Handle} {key : Key} {old : List Event}

theorem World.tracked_of_trackedIn {w : World} {h : Handle} {k : Key} (hv : h.Valid w)
    (hs : .tracked m x key :: old <:+ (w.trackedIn (w.owner h) h k).history) :
    .tracked m x key :: old <:+ w.history ∨
      old = w.history ∧ x.Valid w ∧ w.currentReader (w.owner x) = some m := by
  rw [World.history_trackedIn] at hs
  cases hr : w.currentReader (w.owner h) with
  | none =>
    rw [hr] at hs
    exact .inl hs
  | some n =>
    rw [hr] at hs
    rcases List.suffix_cons_iff.1 hs with heq | hs
    · obtain ⟨htracked, rfl⟩ := List.cons.inj heq
      obtain ⟨rfl, rfl, rfl⟩ := Event.tracked.inj htracked
      exact .inr ⟨rfl, hv, hr⟩
    · exact .inl hs

theorem Step.tracked (h : Step c c') (hs : .tracked m x key :: old <:+ c'.world.history) :
    .tracked m x key :: old <:+ c.world.history ∨
      old = c.world.history ∧ x.Valid c.world ∧
        c.world.currentReader (c.world.owner x) = some m := by
  have plain (l : List Event) (hh : c'.world.history = l ++ c.world.history)
      (hl : .tracked m x key ∉ l) : .tracked m x key :: old <:+ c.world.history :=
    suffix_of_suffix_append l (hh ▸ hs) hl
  cases h with
  | aside h =>
    cases h with
    | log | clearLog | external | task | hold | release => exact .inl hs
    | cancel sub _ => exact .inl (plain [_] (World.history_cancelled _ sub) (by simp))
    | _ => exact .inl (plain [_] rfl (by simp))
  | @track w g rt n y k _ valid owner _ reader =>
    have hs : .tracked m x key :: old <:+ (w.trackedBy n y k).history := hs
    rw [World.history_trackedBy] at hs
    rcases List.suffix_cons_iff.1 hs with heq | hs
    · obtain ⟨htracked, rfl⟩ := List.cons.inj heq
      obtain ⟨rfl, rfl, rfl⟩ := Event.tracked.inj htracked
      exact .inr ⟨rfl, valid, owner ▸ reader⟩
    · exact .inl hs
  | @reuse w g n y r _ memo _ _ _ =>
    rw [← w.owner_memo memo] at hs
    have hs := suffix_of_suffix_append [Event.recalled n] hs (by simp)
    exact World.tracked_of_trackedIn (h := .memo n) (Option.isSome_of_eq_some memo) hs
  | @beginCompute w g n y _ memo _ _ =>
    rw [← w.owner_memo memo] at hs
    dsimp only at hs
    rw [World.history_computing] at hs
    have hs := suffix_of_suffix_append [Event.started n, .cleared n] hs (by simp)
    exact World.tracked_of_trackedIn (h := .memo n) (Option.isSome_of_eq_some memo) hs
  | write _ _ _ edit => exact .inl (plain [_] edit.history (by simp))
  | trigger => exact .inl (plain [_] (World.history_taken ..) (by simp))
  | @tellEffect w g rt n ns _ _ =>
    rcases w.history_queuedIn rt n with hh | hh
    · exact .inl (plain [_] hh (by simp))
    · exact .inl (plain [_, _] hh (by simp))
  | @schedule w g n e _ _ _ _ _ _ =>
    rcases (w.note (.scheduled n)).history_queuedIn e.runtime n with hh | hh
    · exact .inl (plain [_, _] hh (by simp))
    · exact .inl (plain [_, _, _] hh (by simp))
  | @endReading w g n reader y r _ _ =>
    cases reader with
    | none => exact .inl (plain [_] (w.history_gotBy none n r) (by simp))
    | some z => exact .inl (plain [_, _] (w.history_gotBy (some z) n r) (by simp))
  | clearRunning _ _ => exact .inl (plain [_] (World.history_clearedOf ..) (by simp))
  | beginRun _ _ _ _ _ => exact .inl (plain [_, _] (World.history_running ..) (by simp))
  | dispose _ _ _ _ => exact .inl (plain [_] (World.history_disposing ..) (by simp))
  | retire _ _ => exact .inl (plain [_, _] (congrArg _ (World.history_disposing ..)) (by simp))
  | advance h => exact .inl (plain [_] rfl (by cases h <;> simp))
  | _ =>
    first
    | exact .inl hs
    | exact .inl (plain [_] rfl (by simp))
    | exact .inl (plain [_, _] rfl (by simp))

end Reads

theorem Step.shelters (h : Step c c') (hs : c.Sane) (ht : c.Tended n) (hc : c.Shelters n) :
    c'.Shelters n := by
  intro hr since f old heq hno
  have hr₀ := (h.acts hs n).allReturn hs ht hr
  rcases (h.acts hs n).called ⟨since, heq.symm⟩ with ⟨since₀, heq₀⟩ | ⟨-, hshelter⟩
  · obtain ⟨new, hh, hturn⟩ := h.turnover
    obtain rfl : since = new ++ since₀ := by
      rw [hh, ← heq₀, ← List.append_assoc] at heq
      exact (List.append_cancel_right heq).symm
    have hno₀ (f' : Closure) : .cleanupReturned n f' ∉ since₀ :=
      fun hf' => hno f' (List.mem_append_right _ hf')
    rcases (hc hr₀ since₀ f old heq₀.symm hno₀).turnover hturn with
      hshelter | ⟨f', hf'⟩ | ⟨rfl, rt, f', left, hg⟩
    · exact hshelter
    · exact absurd (List.mem_append_left _ hf') (hno f')
    · -- One cleanup would be called more, with the same past.
      rw [hg, doneFor_amid (n := n) (s := .cleanup n rt f' left) rfl, AllReturn,
        List.countP_cons_of_pos rfl] at hr₀
      rw [hh, AllReturn, List.nil_append] at hr
      omega
  · obtain ⟨above, rt, f', left, below, hg, hactive⟩ := hshelter
    exact ⟨above, rt, f', left, below, hg, fun m hm => absurd (hactive m hm) List.not_mem_nil⟩

/-- What a runtime attributes reads to while a cleanup of one of its effects is called was started
in the course of the call. -/
theorem Sheltered.started_of_current {w : World} {g : List Frame} {u : Bool} {rt : RuntimeId}
    {m : NodeId} {since : List Event} (h : Sheltered n since g) (hs : Config.Sane ⟨w, g, u⟩)
    (hc : Config.Separate ⟨w, g, u⟩) (hn : w.MadeBy rt n) (hm : w.currentReader rt = some m) :
    .started m ∈ since := by
  obtain ⟨above, rt', f, left, below, rfl, hactive⟩ := h
  have hhome : (Frame.amid (.cleanup n rt' f left)).AtHome w := hc.frames _ (by simp)
  obtain rfl : rt' = rt := (hhome rt' rfl).unique hn
  have hmask : (Frame.amid (.cleanup n rt' f left)).context? rt' = some none := if_pos rfl
  obtain ⟨above', f', below', hg, hf', hsilent⟩ := hs.exists_current hm
  have hne : .amid (.cleanup n rt' f left) ≠ f' := by
    rintro rfl
    rcases hf' with hf' | ⟨_, hf'⟩ <;> cases hf'
  apply hactive
  suffices hmem : f' ∈ above by
    rcases hf' with rfl | ⟨start, rfl⟩
    · exact mem_actives.2 (.inl ⟨rt', hmem⟩)
    · exact mem_actives.2 (.inr ⟨rt', start, hmem⟩)
  rcases List.append_eq_append_iff.1 hg with ⟨top, rfl, htop⟩ | ⟨top, rfl, htop⟩
  · cases top with
    | nil => exact absurd (List.cons.inj htop).1 hne
    | cons f'' top =>
      obtain ⟨rfl, -⟩ := List.cons.inj htop
      have hnone := hsilent (.amid (.cleanup n rt' f left)) (by simp)
      rw [hmask] at hnone
      cases hnone
  · cases top with
    | nil => exact absurd (List.cons.inj htop).1.symm hne
    | cons f'' top =>
      obtain ⟨rfl, -⟩ := List.cons.inj htop
      simp

end Steps

theorem World.MadeBy.of_extends {w w' : World} (hx : w.Extends w') {n : NodeId}
    (hn : (w.effect? n).isSome) {rt : RuntimeId} (h : w'.MadeBy rt n) : w.MadeBy rt n := by
  obtain ⟨e, he⟩ := Option.isSome_iff_exists.1 hn
  obtain ⟨e', he', hr, -⟩ := hx.effects n e he
  have hmade : w'.MadeBy e.runtime n := .inl ⟨e', he', hr⟩
  obtain rfl := hmade.unique h
  exact .inl ⟨e, he, rfl⟩

theorem Reaches.cleansUntracked {settings : Settings} {hook : Hook} {c : Config}
    (steps : Reaches (.start settings hook) c) (n : NodeId) :
    c.Shelters n ∧
      (AllReturn n (doneFor n c.stack) c.world.history → c.world.CleansUntracked n) := by
  induction steps with
  | refl =>
    constructor
    · intro _ since f old heq
      simp [Config.start, World.start] at heq
    · intro _ m x key since f old hs
      exact absurd (List.suffix_nil.1 hs) (List.cons_ne_nil _ _)
  | @tail c c' steps step ih =>
    have hs := steps.sane (Config.start_sane settings hook)
    have ht := steps.tended n
    refine ⟨step.shelters hs ht ih.1, fun hr m x key since f old hsuffix hno hmade => ?_⟩
    have hr := (step.acts hs n).allReturn hs ht hr
    have effect (hmem : .cleanupStarted n f ∈ c.world.history) : (c.world.effect? n).isSome := by
      by_contra hnone
      have hcalled := (ht.absent (Option.not_isSome_iff_eq_none.1 hnone)).2.1
      have hnot := List.filterMap_eq_nil_iff.1 hcalled _ hmem
      exact absurd ((if_pos rfl).symm.trans hnot) (Option.some_ne_none f)
    rcases step.tracked hsuffix with hold | ⟨heq, hv, hreader⟩
    · have hv : x.Valid c.world := (steps.separate.past _ (hold.subset List.mem_cons_self)).1
      have hn := effect (hold.subset (by simp))
      rw [step.extends.owner_eq hv] at hmade
      exact ih.2 hr m x key since f old hold hno (hmade.of_extends step.extends hn)
    · have hn := effect (heq ▸ by simp)
      rw [step.extends.owner_eq hv] at hmade
      have hshelter := ih.1 hr since f old heq.symm hno
      exact hshelter.started_of_current hs steps.separate (hmade.of_extends step.extends hn) hreader

/-- A cleanup is accepted for the effect that is running, unless that was disposed of, and is only
then added to it. -/
theorem run_registerCleanup (rt : RuntimeId) (c : Closure) (w : World) :
    (∃ n e, w.currentReader rt = some n ∧ w.effect? n = some e ∧ e.disposed = false ∧
      (registerCleanup rt c).run w = (true, (w.note (.cleanupAdded n c)).modifyEffect n fun e =>
        { e with cleanups := e.cleanups ++ [c] })) ∨
      (registerCleanup rt c).run w = (false, w) := by
  rw [registerCleanup, Change.run_bind, Change.run_get]
  cases hr : w.currentReader rt with
  | none => exact .inr rfl
  | some n =>
    simp only
    cases he : w.effect? n with
    | none => exact .inr rfl
    | some e =>
      simp only
      cases hd : e.disposed with
      | true => exact .inr rfl
      | false => exact .inl ⟨n, e, rfl, he, hd, rfl⟩

/-- The cleanups of an effect have been called when and as they should. -/
structure World.Cleans (w : World) (n : NodeId) : Prop where
  inOrder : InOrder n w.history
  untracked : w.CleansUntracked n
  spent : w.isDisposed n → cleanupsCalled n w.history = cleanupsAdded n w.history

/-- In every program, unless one of them does not return, the cleanups of an effect are called once
each, in the order in which they were added, all of them before its function is next started or when
it is disposed of, and nothing that was running before is registered on a thing of its runtime
meanwhile. A cleanup is added only if it is accepted, and to no effect that was disposed of. -/
theorem cleanups_called_once_in_order (settings : Settings) (hook : Hook) (depth : Nat)
    (es : List Expr) (n : NodeId)
    (returned : (cleanupsCalled n (World.after settings hook depth es).history).length =
      (cleanupsReturned n (World.after settings hook depth es).history).length) :
    (World.after settings hook depth es).Cleans n ∧
      ∀ (w : World) rt c,
        (((registerCleanup rt c).run w).1 = true →
          ∃ m e, w.currentReader rt = some m ∧ w.effect? m = some e ∧ e.disposed = false ∧
            cleanupsAdded m ((registerCleanup rt c).run w).2.history =
              c :: cleanupsAdded m w.history) ∧
        (((registerCleanup rt c).run w).1 = false → ((registerCleanup rt c).run w).2 = w) := by
  have hreach := reaches_after settings hook depth es
  generalize World.after settings hook depth es = w at hreach returned
  have hr : AllReturn n (doneFor n []) w.history := returned
  have ht := hreach.tended n
  refine ⟨⟨?_, (hreach.cleansUntracked n).2 hr, fun hd => ?_⟩, fun w rt c => ?_⟩
  · cases hp : w.plan n with
    | none =>
      obtain ⟨hadded, hcalled, -⟩ := ht.absent (World.plan_eq_none.1 hp)
      exact .of_nil hadded hcalled
    | some p => exact (ht.present p hp).2.ordered hr
  · obtain ⟨e, he, hdisposed⟩ : ∃ e, w.effect? n = some e ∧ e.disposed := by
      simpa [World.isDisposed, Option.any_eq_true] using hd
    obtain ⟨htidy, htallied⟩ := ht.present e.plan (World.plan_of_effect? he)
    have hall := htallied.tally hr
    rw [htidy.spent hdisposed] at hall
    exact hall.symm
  · rcases run_registerCleanup rt c w with ⟨m, e, hm, he, hd, hrun⟩ | hrun
    · rw [hrun]
      exact ⟨fun _ => ⟨m, e, hm, he, hd, cleanupsAdded_cons m c w.history⟩, by simp⟩
    · rw [hrun]
      exact ⟨by simp, fun _ => rfl⟩

/-- An effect of one runtime has a cleanup that reads a thing of another, and is disposed of by an
effect of that one. -/
def foreignCleanup : List Expr :=
  [.assign "r" (.apply (.newRuntime .standard .manual) []),
    .assign "o" (.within (.var "r") [.apply .newObject []]),
    .assign "e" (.effect (.onCleanup (readProperty "x"))),
    .within (.var "r") [.assign "f" (.effect (.apply .dispose [.var "e"]))]]

theorem history_foreignCleanup : (World.after .standard .manual 3 foreignCleanup).history =
    [.bound "f", .finished 1, .disposed 0, .cleanedUp 0, .cleanupReturned 0 ⟨readProperty "x", 0⟩,
      .saw 1 (.property 0 "x") .nothing, .tracked 1 (.object 0) (.property "x"),
      .cleanupStarted 0 ⟨readProperty "x", 0⟩, .cleared 0, .started 1, .cleared 1, .cleanedUp 1,
      .bound "e", .finished 0, .cleanupAdded 0 ⟨readProperty "x", 0⟩, .started 0, .cleared 0,
      .cleanedUp 0, .bound "o", .wrapped [], .bound "r"] := by
  cbv

/-- What was running before the cleanup was called is registered on what it reads. -/
theorem cleanup_tracked_elsewhere :
    (cleanupsCalled 0 (World.after .standard .manual 3 foreignCleanup).history).length =
        (cleanupsReturned 0 (World.after .standard .manual 3 foreignCleanup).history).length ∧
      (∃ m x key since f old,
        .tracked m x key :: (since ++ .cleanupStarted 0 f :: old) <:+
            (World.after .standard .manual 3 foreignCleanup).history ∧
          (∀ f', .cleanupReturned 0 f' ∉ since) ∧ .started m ∉ since) ∧
        (World.after .standard .manual 3 foreignCleanup).readers (.object 0) =
          [(.property "x", 1)] := by
  refine ⟨?_, ⟨1, .object 0, .property "x", [], ⟨readProperty "x", 0⟩, ?_⟩, by cbv⟩
  · rw [history_foreignCleanup]
    rfl
  · rw [history_foreignCleanup]
    exact ⟨_, ⟨[_, _, _, _, _, _], rfl⟩, fun _ => List.not_mem_nil, List.not_mem_nil⟩

theorem cleanups_called_once_in_order_foreignCleanup :
    (World.after .standard .manual 3 foreignCleanup).isDisposed 0 ∧
      cleanupsAdded 0 (World.after .standard .manual 3 foreignCleanup).history =
        [⟨readProperty "x", 0⟩] ∧ (World.after .standard .manual 3 foreignCleanup).Cleans 0 := by
  have returned :
      (cleanupsCalled 0 (World.after .standard .manual 3 foreignCleanup).history).length =
        (cleanupsReturned 0 (World.after .standard .manual 3 foreignCleanup).history).length := by
    rw [history_foreignCleanup]
    rfl
  refine ⟨by cbv, ?_, (cleanups_called_once_in_order .standard .manual 3 _ 0 returned).1⟩
  rw [history_foreignCleanup]
  rfl

end Reactivity
