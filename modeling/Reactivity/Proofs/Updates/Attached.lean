import Reactivity.Proofs.Passes.Seating
import Reactivity.Proofs.Registration.Dropping
import Reactivity.Proofs.Updates.Settled

namespace Reactivity

namespace World

theorem IsClean.of_nodes {w w' : World} {n : NodeId} (h : w'.IsClean n)
    (hn : w'.nodes = w.nodes) : w.IsClean n := by
  rwa [IsClean, memo?, hn] at h

theorem IsClean.of_modifyEffect {w : World} {m n : NodeId} {f : Effect → Effect}
    (h : (w.modifyEffect m f).IsClean n) : w.IsClean n := by
  rwa [IsClean, memo?_modifyEffect] at h

theorem IsClean.of_pushNode {w : World} {n : NodeId} {node : Node}
    (h : (w.pushNode node).IsClean n) (fresh : ∀ m, node = .memo m → m.dirty) : w.IsClean n := by
  obtain ⟨m, hm, hd⟩ := h
  rw [memo?_pushNode] at hm
  split at hm
  · cases node with
    | effect e => cases hm
    | memo x =>
      obtain rfl := Option.some.inj hm
      exact absurd ((fresh x rfl).symm.trans hd) (by simp)
  · exact ⟨m, hm, hd⟩

theorem IsClean.of_madeDirty {w : World} {m n : NodeId} (h : (w.madeDirty m).IsClean n) :
    w.IsClean n ∧ n ≠ m := by
  obtain ⟨x, hx, hd⟩ := h
  rw [madeDirty, memo?_modifyMemo] at hx
  split at hx
  · obtain ⟨y, hy, rfl⟩ := Option.map_eq_some_iff.1 hx
    cases hd
  · next hmn => exact ⟨⟨x, hx, hd⟩, Ne.symm hmn⟩

theorem IsClean.of_computing {w : World} {m n : NodeId} {rt : RuntimeId}
    (h : (w.computing m rt).IsClean n) (hmn : m ≠ n) : w.IsClean n := by
  rw [IsClean, memo?_computing, memo?_modifyMemo, if_neg hmn] at h
  exact IsClean.of_sameNodes h (SameNodes.clearedOf w m).symm

theorem IsClean.of_computed {w : World} {m n : NodeId} {rt : RuntimeId} {r : Result}
    (h : (w.computed m rt r).IsClean n) : w.IsClean n := by
  obtain ⟨x, hx, hd⟩ := h
  rw [computed, memo?_modifyMemo] at hx
  split at hx
  · obtain ⟨y, hy, rfl⟩ := Option.map_eq_some_iff.1 hx
    exact ⟨y, hy, hd⟩
  · exact ⟨x, hx, hd⟩

theorem IsClean.ne_of_effect {w : World} {m n : NodeId} (h : w.IsClean n)
    (hm : (w.effect? m).isSome) : m ≠ n := by
  rintro rfl
  obtain ⟨x, hx, -⟩ := h
  rw [memo?_eq_none_of_effect? hm] at hx
  cases hx

theorem isSome_effect?_of_isDisposed {w : World} {n : NodeId} (h : w.isDisposed n) :
    (w.effect? n).isSome := by
  rw [isDisposed] at h
  cases he : w.effect? n with
  | none => simp [he] at h
  | some e => rfl

/-- `w.Overlooks w'`: the change takes no registration from a clean memo and lets none read
anything, and no memo becomes clean. -/
structure Overlooks (w w' : World) : Prop where
  clean : ∀ n, w'.IsClean n → w.IsClean n
  registered : ∀ n, w.IsClean n → ∀ h key, (key, n) ∈ w.readers h → (key, n) ∈ w'.readers h
  silent : ∀ n, w.IsClean n → w.Silent n w'

namespace Overlooks

variable {w w' w'' : World}

theorem of_unnoticed (hu : w.Unnoticed w') (hc : ∀ n, w'.IsClean n → w.IsClean n) :
    w.Overlooks w' :=
  ⟨hc, fun n _ => (hu.spares n).registered, fun n _ => hu.silent n⟩

theorem of_nodes (hu : w.Unnoticed w') (hn : w'.nodes = w.nodes) : w.Overlooks w' :=
  of_unnoticed hu fun _ h => h.of_nodes hn

theorem refl (w : World) : w.Overlooks w :=
  of_unnoticed (.refl w) fun _ => id

theorem note (w : World) {e : Event} (h : ∀ n, ¬ e.Concerns n) : w.Overlooks (w.note e) :=
  of_nodes (.note w h) rfl

theorem modifyEffect (w : World) (n : NodeId) {f : Effect → Effect}
    (hf : ∀ e, e.disposed → (f e).disposed) : w.Overlooks (w.modifyEffect n f) :=
  of_unnoticed (.modifyEffect w n hf) fun _ h => h.of_modifyEffect

theorem cleaning (w : World) (n : NodeId) (rt : RuntimeId) : w.Overlooks (w.cleaning n rt) :=
  of_unnoticed (.cleaning w n rt) fun _ h =>
    h.of_modifyEffect (f := fun e => { e with cleanups := [] })

theorem clearedOf (w : World) {m : NodeId} (hm : (w.effect? m).isSome) :
    w.Overlooks (w.clearedOf m) where
  clean _ h := IsClean.of_sameNodes h (SameNodes.clearedOf w m).symm
  registered _ hn := (Spares.clearedOf w (hn.ne_of_effect hm)).registered
  silent _ _ := ⟨[.cleared m], w.history_clearedOf m, by simp [Event.Concerns]⟩

theorem disposing (w : World) {m : NodeId} (hm : (w.effect? m).isSome) :
    w.Overlooks (w.disposing m) where
  clean _ h := (IsClean.of_sameNodes h (SameNodes.clearedOf _ m).symm).of_modifyEffect
  registered _ hn := (Spares.disposing w (hn.ne_of_effect hm)).registered
  silent _ _ := ⟨[.cleared m], w.history_disposing m, by simp [Event.Concerns]⟩

theorem running (w : World) {m : NodeId} (hm : (w.effect? m).isSome) (rt : RuntimeId) :
    w.Overlooks (w.running m rt) where
  clean n h := by
    have hn : (((w.clearedOf m).pushContext rt (some m)).modifyEffect m fun e =>
      { e with running := true }).IsClean n := h
    exact IsClean.of_sameNodes hn.of_modifyEffect (SameNodes.clearedOf w m).symm
  registered _ hn := (Spares.running w (hn.ne_of_effect hm) rt).registered
  silent _ hn := ⟨[.started m, .cleared m], w.history_running m rt,
    by simp [Event.Concerns, hn.ne_of_effect hm]⟩

end Overlooks

theorem isClean_withStore {w : World} {state : ObjectId} {n : NodeId}
    (h : (w.withStore state).IsClean n) : w.IsClean n := by
  rw [withStore] at h
  exact (h.of_pushNode (by simp)).of_nodes rfl

theorem isClean_ran {w : World} {m n : NodeId} {rt : RuntimeId} (h : (w.ran m rt).IsClean n) :
    w.IsClean n := by
  have h' : (((w.modifyEffect m fun e => { e with running := false }).note
      (.finished m)).modifyEffect m fun e => { e with runCount := e.runCount + 1 }).IsClean n := h
  exact (h'.of_modifyEffect.of_nodes (w := w.modifyEffect m fun e => { e with running := false })
    rfl).of_modifyEffect

end World

theorem Aside.nodes_eq {w w' : World} (h : Aside w w') : w'.nodes = w.nodes := by
  cases h with
  | cancel sub _ =>
    obtain ⟨_, _, h⟩ := w.cancelled_eq sub
    rw [h]
  | _ => rfl

/-- Each clean memo is registered on all that it has read since its function was last started, or is
about to be told of a change. -/
def Config.Attached (c : Config) : Prop :=
  ∀ n, c.world.IsClean n → ∀ h key, .tracked n h key ∈ sinceStart n c.world.history →
    (key, n) ∈ c.world.readers h ∨ c.unwinding = false ∧ AboutToTell n c.stack

namespace Config.Attached

variable {w w' : World} {g g' : List Frame} {u u' : Bool}

theorem stay (h : Attached ⟨w, g, u⟩) (ho : w.Overlooks w')
    (hg : ∀ n, w'.IsClean n → u = false → AboutToTell n g → u' = false ∧ AboutToTell n g') :
    Attached ⟨w', g', u'⟩ := by
  intro n hn x key ht
  have hc := ho.clean n hn
  have ht := ((ho.silent n hc).mem_sinceStart (e := .tracked n x key) rfl).1 ht
  refine (h n hc x key ht).imp (ho.registered n hc x key) fun ⟨hu, ha⟩ => ?_
  exact hg n hn hu ha

theorem go (h : Attached ⟨w, g, u⟩) (ho : w.Overlooks w')
    (hg : ∀ n, u = false → ¬ AboutToTell n g) : Attached ⟨w', g', u'⟩ :=
  h.stay ho fun n _ hu ha => absurd ha (hg n hu)

theorem trackedBy (h : Attached ⟨w, g, u⟩) {x : Handle} (hx : x.Valid w) (m : NodeId) (key : Key) :
    Attached ⟨w.trackedBy m x key, g, u⟩ := by
  intro n hn x' key' ht
  have hc : w.IsClean n := World.IsClean.of_sameNodes hn (World.SameNodes.trackedBy w m x key).symm
  rw [World.sinceStart_trackedBy] at ht
  rcases List.mem_cons.1 ht with he | ht
  · obtain ⟨rfl, rfl, rfl⟩ := Event.tracked.inj he
    exact .inl (World.mem_readers_trackedBy hx _)
  · exact (h n hc x' key' ht).imp_left ((World.Spares.trackedBy w m x key).registered x' key')

theorem trackedIn (h : Attached ⟨w, g, u⟩) {x : Handle} (hx : x.Valid w) (rt : RuntimeId)
    (key : Key) : Attached ⟨w.trackedIn rt x key, g, u⟩ := by
  rw [World.trackedIn]
  split
  · exact h
  · exact h.trackedBy hx _ key

theorem computing (h : Attached ⟨w, g, u⟩) (hg : ∀ n, u = false → ¬ AboutToTell n g) (m : NodeId)
    (rt : RuntimeId) : Attached ⟨w.computing m rt, g', u'⟩ := by
  intro n hn x key ht
  change _ ∈ sinceStart n (w.computing m rt).history at ht
  rw [World.history_computing] at ht
  by_cases hmn : m = n
  · subst hmn
    rw [sinceStart_started] at ht
    cases ht
  · have hne : Event.started m ≠ .started n := fun he => hmn (Event.started.inj he)
    rw [sinceStart_cons hne, sinceStart_cons (by simp)] at ht
    have ht := ((List.mem_cons.1 ht).resolve_left nofun)
    have ht := ((List.mem_cons.1 ht).resolve_left nofun)
    refine .inl ((World.Spares.computing w hmn rt).registered x key ?_)
    exact (h n (hn.of_computing hmn) x key ht).resolve_right fun ⟨hu, ha⟩ => hg n hu ha

theorem taken (h : Attached ⟨w, g, false⟩) (x : Handle) (key : Key)
    (registered : ∀ n, (key, n) ∈ w.readers x → AboutToTell n g')
    (told : ∀ n, AboutToTell n g → AboutToTell n g') : Attached ⟨w.taken x key, g', false⟩ := by
  intro n hn x' key' ht
  have hc : w.IsClean n := World.IsClean.of_sameNodes hn (World.SameNodes.taken w x key).symm
  change _ ∈ sinceStart n (w.taken x key).history at ht
  rw [World.history_taken, sinceStart_cons (by simp)] at ht
  rcases h n hc x' key' ((List.mem_cons.1 ht).resolve_left nofun) with hr | ⟨-, ha⟩
  · by_cases hx : x' = x ∧ key' = key
    · obtain ⟨rfl, rfl⟩ := hx
      exact .inr ⟨rfl, registered n hr⟩
    · refine .inl ?_
      change (key', n) ∈ (w.taken x key).readers x'
      rw [World.taken, World.readers_modifyReaders]
      split
      · next hxx =>
        refine List.mem_filter.2 ⟨hxx.1 ▸ hr, ?_⟩
        simpa using fun he => hx ⟨hxx.1, he⟩
      · exact (World.readers_note w _ x').symm ▸ hr
  · exact .inr ⟨rfl, told n ha⟩

end Config.Attached

/-- A step takes no registration from a clean memo unless the memo is told of a change next; where
no hook flushes at once, and bodies are not nested too deeply. -/
theorem Step.attached {c c' : Config} (h : Step c c') (hc : c.Attached) (hw : c'.world.Unhurried)
    (he : .exhausted ∉ c'.world.history) : c'.Attached := by
  have hx := h.extends
  have code {g : List Frame} {u : Bool} (h : AtCode g) (n : NodeId) :
      u = false → ¬ AboutToTell n g := fun _ => h.not_aboutToTell n
  -- A frame on top that tells nobody.
  have top {g : List Frame} (h : ∀ n, ¬ AboutToTell n g) (n : NodeId) :
      false = false → ¬ AboutToTell n g := fun _ => h n
  have thrown {g : List Frame} (n : NodeId) : true = false → ¬ AboutToTell n g := nofun
  cases h with
  | aside h => exact hc.stay (.of_nodes h.unnoticed h.nodes_eq) fun n _ hu ha => ⟨hu, ha⟩
  | track _ valid _ _ _ => exact hc.trackedBy valid _ _
  | see hg _ _ _ _ _ _ =>
    intro n hn x key ht
    rw [World.sinceStart_note _ _ _ (by simp)] at ht
    exact hc n hn x key ((List.mem_cons.1 ht).resolve_left (by simp))
  | newObject hg _ _ =>
    refine hc.go (.of_nodes ?_ rfl) (code hg)
    exact (World.Unnoticed.note _ fun _ => id).trans (.pushObject _ _)
  | newArray hg _ _ =>
    refine hc.go (.of_nodes ?_ rfl) (code hg)
    exact (World.Unnoticed.note _ fun _ => id).trans (.pushArray _ _)
  | resolveObject hg resolved => exact hc.go (.of_nodes (.resolveObject resolved) rfl) (code hg)
  | resolveArray hg resolved => exact hc.go (.of_nodes (.resolveArray resolved) rfl) (code hg)
  | @write w w' g rt write hg _ _ edit =>
    refine hc.go ⟨fun n hn => hn.of_nodes edit.nodes_eq, fun n _ => (edit.spares n).registered,
      fun n _ => ?_⟩ (code hg)
    exact ⟨[.wrote write], edit.history, by simp [Event.Concerns]⟩
  | beginChange hg _ _ _ => exact hc.go (.note _ fun _ => id) (code hg)
  | @endChange w g rt id before after _ _ =>
    refine hc.go ⟨fun n hn => hn, fun n _ => ?_, fun n _ => ?_⟩ (top fun _ h => h)
    · have hu := (World.Unnoticed.note w (e := .changeEnded id) fun _ h => h).trans
        (.note _ (e := .wrote (.items id before after)) fun _ h => h)
      exact ((hu.spares n).trans (.modifyArray _ id
        (f := fun a => { a with cells := after.map .value }) fun _ => rfl)).registered
    · exact ⟨[.wrote (.items id before after), .changeEnded id], rfl, by simp [Event.Concerns]⟩
  | abandonChange => exact hc.go (.note _ fun _ => id) thrown
  | trigger =>
    exact hc.taken _ _ (fun n hn => .inl (Readers.mem_on.2 hn)) fun n ha => .inr ha
  | written => exact hc.stay (.refl _) fun n _ hu ha => ⟨hu, ha⟩
  | told => exact hc.stay (.refl _) fun n _ hu ha => ⟨hu, ha.resolve_left List.not_mem_nil⟩
  | @tellDisposed w g rt m ns disposed =>
    refine hc.stay (.refl _) fun n hn hu ha => ⟨hu, ha.imp_left fun hm => ?_⟩
    refine (List.mem_cons.1 hm).resolve_left fun hnm => ?_
    exact hn.ne_of_effect (World.isSome_effect?_of_isDisposed disposed) hnm.symm
  | tellQueued effect queued =>
    refine hc.stay (.refl _) fun n hn hu ha => ⟨hu, ha.imp_left fun hm => ?_⟩
    exact (List.mem_cons.1 hm).resolve_left (hn.ne_of_effect effect).symm
  | @tellEffect w g rt m ns effect _ =>
    have hn : (w.queuedIn rt m).nodes = w.nodes := World.nodes_queuedIn w rt m
    have ho : w.Overlooks (w.queuedIn rt m) := .of_nodes (.queuedIn w rt m) hn
    refine hc.stay ho fun n hn' hu ha => ⟨hu, ha.imp_left fun hm => ?_⟩
    exact (List.mem_cons.1 hm).resolve_left ((hn'.of_nodes hn).ne_of_effect effect).symm
  | @tellDirty w g rt m ns x memo dirty =>
    refine hc.stay (.of_unnoticed (.madeDirty memo dirty) fun n hn => hn.of_madeDirty.1)
      fun n hn hu ha => ⟨hu, ha.imp_left fun hm => ?_⟩
    exact (List.mem_cons.1 hm).resolve_left hn.of_madeDirty.2
  | @tellClean w g rt m ns x memo clean =>
    have ho : w.Overlooks (w.madeDirty m) := ⟨fun n hn => hn.of_madeDirty.1,
      fun n _ => (World.Spares.madeDirty w m).registered, fun n _ => .of_eq rfl⟩
    refine hc.stay ho fun n hn hu ha => ⟨hu, ha.imp_left fun hm => ?_⟩
    exact (List.mem_cons.1 hm).resolve_left hn.of_madeDirty.2
  | @schedule w g m e hg _ _ _ _ _ =>
    refine hc.go (.of_nodes ?_ (World.nodes_queuedIn _ _ _)) (code hg)
    exact (World.Unnoticed.note w fun _ => id).trans (.queuedIn ..)
  | @markDirty w g m x hg memo dirty =>
    refine hc.go (.of_unnoticed ((World.Unnoticed.note w fun _ => id).trans (.madeDirty memo dirty))
      fun n hn => ?_) (code hg)
    exact hn.of_madeDirty.1.of_nodes rfl
  | @markClean w g m x hg _ _ _ =>
    refine hc.go ⟨fun n hn => hn.of_madeDirty.1.of_nodes rfl, fun n _ => ?_, fun n _ => ?_⟩
      (code hg)
    · exact ((World.Spares.note w (.dirtied m)).trans (.madeDirty _ m)).registered
    · exact ⟨[.dirtied m], rfl, by simp [Event.Concerns]⟩
  | newMemo hg _ _ =>
    refine hc.go (.of_unnoticed (.pushNode _ _) fun n hn => hn.of_pushNode ?_) (code hg)
    rintro m ⟨⟩
    rfl
  | @reuse w g n m r hg memo _ _ _ =>
    have hv : Handle.Valid w (.memo n) := Option.isSome_of_eq_some memo
    exact (hc.trackedIn hv m.runtime .value).go (.note _ fun _ => id) (code hg)
  | @beginCompute w g n m hg memo _ _ =>
    have hv : Handle.Valid w (.memo n) := Option.isSome_of_eq_some memo
    exact (hc.trackedIn hv m.runtime .value).computing (code hg) n m.runtime
  | @endCompute w g n rt start since r _ _ _ =>
    refine hc.go ⟨fun n hn => hn.of_computed,
      fun m _ => (World.Spares.computed w n rt r).registered, fun m _ => ?_⟩ (top fun _ => id)
    exact ⟨[.finished n], w.history_computed n rt r, by simp [Event.Concerns]⟩
  | abandonCompute => exact hc.go (.of_nodes (.modifyRuntime _ _ fun _ _ => id) rfl) thrown
  | @endReading w g n reader m r _ _ =>
    intro k hk x key ht
    have hk : w.IsClean k := by
      cases reader <;> exact hk
    change _ ∈ sinceStart k (w.gotBy reader n r).history at ht
    rw [World.history_gotBy, sinceStart_cons (by simp)] at ht
    have ht := (List.mem_cons.1 ht).resolve_left (by simp)
    have ht : .tracked k x key ∈ sinceStart k w.history := by
      cases reader with
      | none => exact ht
      | some y =>
        rw [Option.map_some, Option.toList_some, List.singleton_append,
          sinceStart_cons (by simp)] at ht
        exact (List.mem_cons.1 ht).resolve_left (by simp)
    refine .inl ((World.Spares.gotBy w reader n r).registered x key ?_)
    exact (hc k hk x key ht).resolve_right fun h => h.2
  | newEffect hg _ _ _ _ _ =>
    refine hc.go (.of_unnoticed (.pushNode _ _) fun n hn => hn.of_pushNode ?_) (code hg)
    rintro m ⟨⟩
  | newStore hg _ _ =>
    exact hc.go (.of_unnoticed (.withStore _ _) fun n => World.isClean_withStore) (code hg)
  | @addCleanup w g rt n e c hg _ _ _ _ _ =>
    refine hc.go (.of_unnoticed ((World.Unnoticed.note w (e := .cleanupAdded n c) fun _ => id).trans
      (.modifyEffect _ _ fun _ => id)) fun m hm => ?_) (code hg)
    exact hm.of_modifyEffect
  | beginCleaning _ => exact hc.go (.cleaning _ _ _) (top fun _ => id)
  | endCleaning =>
    exact hc.go (.of_nodes ((World.Unnoticed.popContext _ _).trans (.note _ fun _ => id)) rfl)
      (top fun _ => id)
  | abandonCleaning _ => exact hc.go (.of_nodes (.popContext _ _) rfl) thrown
  | skipPending _ => exact hc.go (.refl _) (top fun _ => id)
  | clearRunning effect _ =>
    exact hc.go (.clearedOf _ (Option.isSome_of_eq_some effect)) (top fun _ => id)
  | beginRun effect _ _ turn _ =>
    refine hc.go (.running _ (Option.isSome_of_eq_some effect) _) (top fun _ => ?_)
    rcases turn with ⟨rfl, -⟩ | ⟨rfl, -⟩ <;> exact id
  | endRun _ =>
    exact hc.go (.of_unnoticed (.ran _ _ _) fun _ => World.isClean_ran) (top fun _ => id)
  | beginWatch _ _ => exact hc.go (.refl _) (top fun _ => id)
  | advance h => exact hc.go (.note _ h.not_concerns) (top fun _ => id)
  | keep _ _ _ => exact hc.go (.modifyEffect _ _ fun _ => id) (top fun _ => id)
  | endReport => exact hc.go (.refl _) (top fun _ => id)
  | watched _ _ _ => exact hc.go (.refl _) (top fun _ => id)
  | prime _ _ => exact hc.go (.modifyEffect _ _ fun _ => id) (top fun _ => id)
  | skipPass _ _ _ => exact hc.go (.refl _) (top fun _ => id)
  | watchPass _ _ _ _ => exact hc.go (.of_nodes (.passBegun _ _) rfl) (top fun _ => id)
  | watchPostpone _ _ _ => exact hc.go (.of_nodes (.passPostponed _ _) rfl) (top fun _ => id)
  | endWatch _ =>
    exact hc.go (.of_unnoticed (.ran _ _ _) fun _ => World.isClean_ran) (top fun _ => id)
  | abandonRun =>
    exact hc.go (.of_unnoticed (.stopped _ _ _) fun _ h => h.of_modifyEffect) thrown
  | @dispose w g n e hg effect _ _ =>
    have hd : Config.Attached ⟨w.disposing n, g, false⟩ :=
      hc.go (.disposing _ (Option.isSome_of_eq_some effect)) (code hg)
    exact hd.go (.cleaning _ _ _) (code hg)
  | @retire w g u n effect _ =>
    have hd : Config.Attached ⟨w.disposing n, g, u⟩ :=
      hc.stay (.disposing w effect) fun n _ hu ha => ⟨hu, ha⟩
    exact hd.stay (.note _ fun _ => id) fun n _ hu ha => ⟨hu, ha⟩
  | mask hg _ _ => exact hc.go (.of_nodes (.modifyRuntime _ _ fun _ _ => id) rfl) (code hg)
  | unmask => exact hc.go (.of_nodes (.modifyRuntime _ _ fun _ _ => id) rfl) fun _ _ => id
  | @beginPass w g id hg _ _ _ =>
    have hu := World.Unnoticed.note w (e := .passAsked id) fun _ h => h
    exact hc.go (.of_nodes (hu.trans (.passBegun _ _)) rfl) (code hg)
  | endPass => exact hc.go (.of_nodes (.passEnded _ _ _) rfl) fun _ _ => id
  | @postpone w g id hg _ _ =>
    have hu := World.Unnoticed.note w (e := .passAsked id) fun _ h => h
    exact hc.go (.of_nodes (hu.trans (.passPostponed _ _)) rfl) (code hg)
  | settle _ => exact hc.go (.refl _) (top fun _ => id)
  | forgo _ =>
    exact hc.go (.of_nodes (.of_eq rfl rfl rfl rfl fun _ => .of_eq rfl) rfl) (top fun _ => id)
  | @takeUp w g id e _ _ _ =>
    have hu : w.Unnoticed (w.modifyStore id fun s => { s with pending := false }) :=
      .of_eq rfl rfl rfl rfl fun _ => .of_eq rfl
    exact hc.go (.of_nodes (hu.trans (.note _ fun _ h => h)) rfl) (top fun _ h => h)
  | passOver _ => exact hc.go (.refl _) fun _ _ => id
  | beginCall _ _ _ => exact hc.go (.of_nodes (.callBegun _ _ _) rfl) fun _ _ => id
  | @subscribe w g id callback hg _ _ _ =>
    have hu := (World.Unnoticed.withSubscription w id callback).trans
      (.pushContext _ (w.store id).runtime none)
    exact hc.go (.of_nodes hu rfl) (code hg)
  | greet _ _ => exact hc.go (.of_nodes (.callBegun _ _ _) rfl) fun _ _ => id
  | endCall => exact hc.go (.of_nodes (.callEnded _ _) rfl) fun _ _ => id
  | newRuntime hg => exact hc.go (.of_nodes (.pushRuntime _ _) rfl) (code hg)
  | @beginFlush w g rt hg _ valid _ =>
    have hg := hg.resolve_right fun h => hw.of_extends hx _ valid h.2
    have hu := World.Unnoticed.note w (e := .flushBegan rt) fun _ => id
    exact hc.go (.of_nodes (hu.trans (.modifyRuntime _ rt fun _ _ => id)) rfl) (code hg)
  | @beginRound w g rt _ =>
    refine hc.go ⟨fun n hn => hn, fun n _ h key hr => ?_, fun n _ => ?_⟩ (top fun _ => id)
    · exact (World.Spares.note _ _).registered h key hr
    · exact ⟨[.roundBegan rt (w.queue rt)], rfl, by simp [Event.Concerns]⟩
  | @giveUp w s g rt _ frames =>
    refine hc.go ⟨fun n hn => hn, fun n _ h key hr => ?_, fun n _ => ?_⟩ (top ?_)
    · exact (World.Spares.note _ _).registered h key hr
    · exact ⟨[.gaveUp rt], rfl, by simp [Event.Concerns]⟩
    · rcases frames with rfl | ⟨rfl, -⟩ <;> exact fun _ => id
  | skipTurn _ => exact hc.go (.refl _) (top fun _ => id)
  | beginTurn _ => exact hc.go (.note _ fun _ => id) (top fun _ => id)
  | endRound => exact hc.go (.refl _) (top fun _ => id)
  | @endFlush w g rt u _ =>
    have hu : w.Unnoticed (w.modifyRuntime rt fun r => { r with flushing := false }) :=
      .modifyRuntime _ _ fun _ _ => id
    exact hc.go (.of_nodes (hu.trans (.note _ fun _ => id)) rfl) fun _ _ => id
  | throw hg => exact hc.go (.note _ fun _ => id) (code hg)
  | exhaust => exact absurd (List.mem_cons_self ..) he
  | drop _ => exact hc.go (.refl _) thrown
  | resume => exact hc.go (.refl _) thrown

theorem Reaches.attached {settings : Settings} {hook : Hook} {c : Config}
    (h : Reaches (.start settings hook) c) (hw : c.world.Unhurried)
    (he : .exhausted ∉ c.world.history) : c.Attached := by
  induction h with
  | refl => exact fun n _ x key ht => absurd ht List.not_mem_nil
  | tail steps step ih =>
    have hx := step.extends
    exact step.attached (ih (hw.of_extends hx) fun hm => he (hx.history.subset hm)) hw he

/-- A read of a memo computes its result anew, unless it is clean; and then nothing that it has read
since its function was last started was triggered since it was read, whether that function has
returned or has thrown. -/
theorem recalled_only_if_untriggered (settings : Settings) (hook : Hook) (depth : Nat)
    (es : List Expr) :
    Throughout settings hook depth es fun w => w.Unhurried → .exhausted ∉ w.history →
      ∀ n m, w.memo? n = some m → ∀ k : Kernel,
        (readMemo k n).run.run w = (computeMemo k n m >>= finishRead k m.runtime n).run.run
            (w.trackedIn m.runtime (.memo n) .value) ∨
          (∀ h key, .tracked n h key ∈ sinceStart n w.history →
            (key, n) ∈ w.readers h ∧ .tracked n h key ∈ sinceTriggered h key w.history) ∧
          ∃ r, m.result = some r ∧ (readMemo k n).run.run w =
            (note (.recalled n) >>= fun _ => finishRead k m.runtime n r : Act Result).run.run
              (w.trackedIn m.runtime (.memo n) .value) := by
  refine throughout_of_reaches (fun {c} hreach _ hcode hw he n m hm k => ?_) depth es
  have compute (stale : m.dirty ∨ m.result = none) := run_readMemo_stale (k := k) hm stale
  cases hd : m.dirty with
  | true => exact .inl (compute (.inl hd))
  | false =>
    cases hr : m.result with
    | none => exact .inl (compute (.inr hr))
    | some r =>
      refine .inr ⟨fun h key ht => ?_, r, rfl, run_readMemo_clean hm hd hr⟩
      have registered : (key, n) ∈ c.world.readers h := by
        refine (hreach.attached hw he n ⟨m, hm, hd⟩ h key ht).resolve_right fun ⟨_, ha⟩ => ?_
        have code : AtCode c.stack := hcode.resolve_right fun ⟨_, rt, hook, _⟩ =>
          hw rt (World.lt_of_hook hook) hook
        exact code.not_aboutToTell n ha
      exact ⟨registered, hreach.mirrored.untriggered h key n registered⟩

/-- A memo reads a property, and throws from its second computation on. -/
def breakingMemo : List Expr :=
  withObject [.assign "m" (.memo (breakOn "x")), .apply .readMemo [.var "m"],
    writeProperty "x" (.literal .null), .attempt [.apply .readMemo [.var "m"]],
    .apply .readMemo [.var "m"]]

theorem history_breakingMemo : (World.after .standard .manual 3 breakingMemo).history =
    [.got 0 .nothing, .recalled 0, .threw "broken",
      .saw 0 (.property 0 "x") (.value .null), .tracked 0 (.object 0) (.property "x"), .started 0,
      .cleared 0, .triggered (.object 0) .shape, .triggered (.memo 0) .value,
      .triggered (.object 0) (.property "x"), .wrote (.property 0 "x" none (some .null)),
      .got 0 .nothing, .finished 0, .saw 0 (.property 0 "x") .nothing,
      .tracked 0 (.object 0) (.property "x"), .started 0, .cleared 0, .bound "m", .bound "o",
      .wrapped []] := by
  cbv

/-- A computation that throws leaves the memo clean, with the result from before the change that it
has read: the next read recalls that. -/
theorem thrown_computation_recalls_former_result : ∃ recent old,
    (World.after .standard .manual 3 breakingMemo).history =
      .got 0 .nothing :: .recalled 0 ::
        (recent ++ .triggered (.object 0) (.property "x") :: old) ∧
      .threw "broken" ∈ recent ∧ .tracked 0 (.object 0) (.property "x") ∈ recent ∧
        .finished 0 ∉ recent ∧ .finished 0 ∈ old := by
  refine ⟨[.threw "broken", .saw 0 (.property 0 "x") (.value .null),
    .tracked 0 (.object 0) (.property "x"), .started 0, .cleared 0, .triggered (.object 0) .shape,
    .triggered (.memo 0) .value],
    _, history_breakingMemo, ?_, ?_, ?_, ?_⟩
  all_goals simp

/-- The memo is clean then, and registered on what its thrown computation has read. -/
theorem recalled_only_if_untriggered_breakingMemo :
    Throughout .standard .manual 3 breakingMemo (fun w => w.Unhurried → .exhausted ∉ w.history →
      ∀ n m, w.memo? n = some m → ∀ k : Kernel,
        (readMemo k n).run.run w = (computeMemo k n m >>= finishRead k m.runtime n).run.run
            (w.trackedIn m.runtime (.memo n) .value) ∨
          (∀ h key, .tracked n h key ∈ sinceStart n w.history →
            (key, n) ∈ w.readers h ∧ .tracked n h key ∈ sinceTriggered h key w.history) ∧
          ∃ r, m.result = some r ∧ (readMemo k n).run.run w =
            (note (.recalled n) >>= fun _ => finishRead k m.runtime n r : Act Result).run.run
              (w.trackedIn m.runtime (.memo n) .value)) ∧
    ∃ w, w = World.after .standard .manual 3 breakingMemo ∧ w.Unhurried ∧
      .exhausted ∉ w.history ∧ (w.memo? 0).map (·.dirty) = some false ∧
        .tracked 0 (.object 0) (.property "x") ∈ sinceStart 0 w.history := by
  refine ⟨recalled_only_if_untriggered .standard .manual 3 breakingMemo, _, rfl, ?_, ?_, by cbv, ?_⟩
  · intro rt hrt
    have size : (World.after .standard .manual 3 breakingMemo).runtimes.size = 1 := by cbv
    obtain rfl : rt = 0 := Nat.lt_one_iff.1 (size ▸ hrt)
    have manual : ((World.after .standard .manual 3 breakingMemo).runtime 0).hook = .manual := by
      cbv
    rw [manual]
    exact fun h => by cases h
  · simp [history_breakingMemo]
  · simp [history_breakingMemo, sinceStart]

end Reactivity
