import Reactivity.Proofs.Run.Writing

namespace Reactivity

/-- The program's own code may run, and may do more than to read. -/
structure Ready (w : World) (g : List Frame) : Prop where
  code : AtCode g
  free : Free w g
  frames : ∀ f ∈ g, f.Valid w

theorem Ready.mono {w w' : World} {g : List Frame} (h : Ready w g) (he : w.Extends w') :
    Ready w' g where
  code := h.code
  free := h.free.mono he h.frames
  frames f hf := (h.frames f hf).mono he

theorem Ready.masked {w : World} {g : List Frame} (h : Ready w g) {rt : RuntimeId}
    (hrt : rt < w.runtimes.size) : Ready w (.masked rt :: g) where
  code := trivial
  free := h.free
  frames f hf := by
    rcases List.mem_cons.1 hf with rfl | hf
    · exact hrt
    · exact h.frames f hf

/-- No watcher is the innermost computation where the program's own code runs. -/
theorem Ready.not_watching {w : World} {g : List Frame} (h : Ready w g) :
    ∀ x rt s, g = .running x rt :: s → w.isWatcher x = false := by
  rintro x rt s rfl
  exact h.free

section Masked

variable {α : Type} {R : Config → Prop} {k : Kernel} (hk : k.Sound R) {w : World} {g : List Frame}
include hk

theorem Kernel.Sound.runs_untracked {rt : RuntimeId} {act : Act α} {Q : α → World → Prop}
    (hQ : ∀ {a w w'}, w.Extends w' → Q a w → Q a w') (ready : Ready w g)
    (hrt : rt < w.runtimes.size)
    (hact : ∀ {w'}, w.Extends w' → Ready w' (.masked rt :: g) →
      Runs R (.masked rt :: g) (.masked rt :: g) (.masked rt :: g) act Q w') :
    Runs R g g g (untracked rt act) Q w := by
  have he := World.Extends.pushContext w rt none
  refine .step hk.closed (act.ensuring (modify (·.popContext rt))) (.mask ready.code ready.free hrt)
    rfl ?_
  refine (hact he ((ready.masked hrt).mono he)).ensuring (fun a w₁ _ _ hq => ?_) fun w₁ _ _ => ?_
  · exact .of_step hk.closed .unmask fun he' => hQ he' hq
  · exact .of_step hk.closed .unmask fun _ => trivial

end Masked

/-- Reads are attributed as they were whenever the same computations are running. -/
theorem currentReader_of_sane {w w' : World} {g g' : List Frame} {u u' : Bool} {rt : RuntimeId}
    (h : Config.Sane ⟨w, g, u⟩) (h' : Config.Sane ⟨w', g', u'⟩) (he : w.Extends w')
    (hrt : rt < w.runtimes.size) (stack : contextOf rt g' = contextOf rt g) :
    w'.currentReader rt = w.currentReader rt := by
  have hc : w'.context rt = w.context rt :=
    (h'.context rt (he.runtimes rt hrt).1).trans (stack.trans (h.context rt hrt).symm)
  rw [World.currentReader, World.currentReader]
  exact congrArg (fun c => c.head?.join) hc

def finishRead (k : Kernel) (rt : RuntimeId) (n : NodeId) (r : Result) : Act Result := do
  noteRead rt (.memo n) r
  note (.got n r)
  k.observe
  return r

theorem run_computeMemo (k : Kernel) (n : NodeId) (m : Memo) (w : World) :
    (computeMemo k n m).run.run w =
      match (k.call m.body []).run.run (w.computing n m.runtime) with
      | (.ok r, w') => (.ok r, w'.computed n m.runtime r)
      | (.error i, w') => (.error i, w'.popContext m.runtime) := by
  have h : (computeMemo k n m).run.run w =
      (do
        let r ← (k.call m.body []).ensuring (modify (·.popContext m.runtime))
        note (.finished n)
        modify (·.modifyMemo n fun m =>
          { m with computeCount := m.computeCount + 1, result := some r })
        return r : Act Result).run.run (w.computing n m.runtime) := rfl
  rw [h, Act.run_bind, Act.run_ensuring]
  rcases (k.call m.body []).run.run (w.computing n m.runtime) with ⟨i | r, w'⟩ <;> rfl

section Read

variable {R : Config → Prop} {k : Kernel} (hk : k.Sound R) {w : World} {g : List Frame}
variable {n : NodeId} {m : Memo}
include hk

theorem Kernel.Sound.runs_finishRead {rt : RuntimeId} {r : Result} (code : AtCode g)
    (hm : w.memo? n = some m)
    (hr : m.result = some r) :
    Runs R (.reading (w.currentReader rt) n :: g) g g (finishRead k rt n r)
      (fun r' w' => r' = r ∧ w.ReadIn rt (.memo n) r w') w := by
  refine .step hk.closed (k.observe >>= fun _ => pure r) (.endReading hm hr) ?_ ?_
  · rw [finishRead, Act.run_lift_bind, Act.run_lift_bind, run_noteRead, Change.run_note]
    cases w.currentReader rt <;> rfl
  · refine hk.runs_observed (.inl code) fun w' he => .pure ⟨rfl, fun x hx => ?_⟩
    have ha : w.Adds (w.gotBy (w.currentReader rt) n r) (.saw x (.memo n) r) := by
      rw [hx]
      exact ⟨[.got n r, .saw x (.memo n) r], rfl, List.mem_cons_of_mem _ (List.mem_singleton.2 rfl)⟩
    exact ha.mono (.refl w) he

theorem Kernel.Sound.runs_body {rt : RuntimeId} {start : List Event} (hm : w.memo? n = some m)
    (hbody : m.body.Valid w) (hstart : start <:+ w.history) :
    Runs R (.computing n rt start :: g) (.computing n rt start :: g) (.computing n rt start :: g)
      (k.call m.body [])
      (fun r w' => r.Valid w' ∧ (m.body.body.isPure → w'.runtimes.size = 1 →
        ∀ since, w'.history = since ++ start →
          m.body.body.Follows ⟨m.body.runtime, []⟩ n since w'.lookup r)) w := by
  cases hp : m.body.body.isPure with
  | true => exact (hk.callPure hbody hp hstart).mono fun r w' _ _ h => ⟨h.1, fun _ => h.2⟩
  | false =>
    have free : Free w (.computing n rt start :: g) := by
      intro m' hm'
      obtain rfl : m = m' := Option.some.inj (hm.symm.trans hm')
      exact hp
    have hargs : ∀ r ∈ ([] : List Result), r.Valid w := fun _ h => absurd h List.not_mem_nil
    refine (hk.call (g := .computing n rt start :: g) trivial free hbody hargs).mono
      fun r w' _ _ h => ⟨h, fun hp' => ?_⟩
    exact absurd hp' Bool.false_ne_true

theorem Kernel.Sound.runs_compute (code : AtCode g) (hm : w.memo? n = some m)
    (stale : m.dirty ∨ m.result = none)
    (computed : ∀ x rt s, g = .running x rt :: s → w.isWatcher x = false) :
    R ⟨w, g, false⟩ → Ends R g g (fun r w' => r.Valid w' ∧ w.ReadIn m.runtime (.memo n) r w') w
      ((computeMemo k n m >>= finishRead k m.runtime n).run.run
        (w.trackedIn m.runtime (.memo n) .value)) := by
  intro hr
  have hs := (hk.closed.sane hr)
  have hrt := (hs.world.memos n m hm).1
  have hstep := Step.beginCompute code hm stale computed
  obtain ⟨m₁, hm₁, hrt₁, hbody₁⟩ := hstep.extends.memos n m hm
  have hbody := (hs.world.memos n m hm).2.1.mono hstep.extends
  have hb := hk.runs_body hm₁ (hbody₁ ▸ hbody) (List.suffix_refl _) (hk.closed.step hr hstep)
  rw [Act.run_bind, run_computeMemo]
  rw [hbody₁] at hb
  generalize (k.call m.body []).run.run
    ((w.trackedIn m.runtime (.memo n) .value).computing n m.runtime) = o at hb
  rcases o with ⟨i | r, w₂⟩
  · obtain ⟨hr₂, he₂, hi⟩ := hb
    have hr₃ := hk.closed.step hr₂ .abandonCompute
    exact ⟨hk.closed.step hr₃ (.drop trivial), hstep.extends.trans (he₂.trans (.popContext ..)),
      hi.mono hstep.extends (.popContext ..)⟩
  · obtain ⟨hr₂, he₂, hvalid, hfollows⟩ := hb
    obtain ⟨since, hsince⟩ := he₂.history
    obtain ⟨m₂, hm₂, -, hbody₂⟩ := he₂.memos n m₁ hm₁
    have hend : Step
        ⟨w₂, .computing n m.runtime
            ((w.trackedIn m.runtime (.memo n) .value).computing n m.runtime).history ::
          .reading (w.currentReader m.runtime) n :: g, false⟩
        ⟨w₂.computed n m.runtime r, .reading (w.currentReader m.runtime) n :: g, false⟩ := by
      refine .endCompute hvalid hsince.symm fun m' hm' hp hsize => ?_
      obtain rfl : m₂ = m' := Option.some.inj (hm₂.symm.trans hm')
      rw [hbody₂, hbody₁] at hp ⊢
      exact hfollows hp hsize since hsince.symm
    have hr₃ := hk.closed.step hr₂ hend
    have he₃ := hstep.extends.trans (he₂.trans hend.extends)
    have hreader := currentReader_of_sane hs (hk.closed.sane hr₃) he₃ hrt rfl
    have hm₃ : (w₂.computed n m.runtime r).memo? n =
        some { m₂ with computeCount := m₂.computeCount + 1, result := some r } := by
      have hm₂' : ((w₂.popContext m.runtime).note (.finished n)).memo? n = some m₂ := hm₂
      rw [World.computed, World.memo?_modifyMemo, if_pos rfl, hm₂', Option.map_some]
    rw [← hreader] at hr₃
    refine (hk.runs_finishRead code hm₃ rfl hr₃).mono he₃ fun r' w₄ he₄ hread => ?_
    obtain ⟨rfl, hread⟩ := hread
    refine ⟨(hvalid.mono hend.extends).mono he₄, fun x hx => ?_⟩
    exact (hread x (hreader.trans hx)).mono he₃ (.refl w₄)

omit hk in
theorem run_readMemo_stale (hm : w.memo? n = some m) (stale : m.dirty ∨ m.result = none) :
    (readMemo k n).run.run w = (computeMemo k n m >>= finishRead k m.runtime n).run.run
      (w.trackedIn m.runtime (.memo n) .value) := by
  rw [readMemo, Act.run_get_bind, hm]
  simp only
  rw [Act.run_lift_bind, run_track]
  cases hd : m.dirty with
  | true => rfl
  | false =>
    rw [hd] at stale
    rw [stale.resolve_left Bool.false_ne_true]
    rfl

omit hk in
theorem run_readMemo_clean (hm : w.memo? n = some m) (clean : m.dirty = false) {r : Result}
    (result : m.result = some r) :
    (readMemo k n).run.run w =
      (note (.recalled n) >>= fun _ => finishRead k m.runtime n r : Act Result).run.run
        (w.trackedIn m.runtime (.memo n) .value) := by
  rw [readMemo, Act.run_get_bind, hm]
  simp only
  rw [Act.run_lift_bind, run_track, clean, result]
  rfl

theorem Kernel.Sound.runs_readMemo (code : AtCode g) (hm : w.memo? n = some m)
    (computed : ∀ x rt s, g = .running x rt :: s → w.isWatcher x = false) :
    Runs R g g g (readMemo k n) (fun r w' => r.Valid w' ∧ w.ReadIn m.runtime (.memo n) r w') w := by
  have compute (stale : m.dirty ∨ m.result = none) :
      Runs R g g g (readMemo k n)
        (fun r w' => r.Valid w' ∧ w.ReadIn m.runtime (.memo n) r w') w := by
    intro hr
    rw [run_readMemo_stale hm stale]
    exact hk.runs_compute code hm stale computed hr
  cases hdirty : m.dirty with
  | true => exact compute (.inl hdirty)
  | false =>
    cases hresult : m.result with
    | none => exact compute (.inr hresult)
    | some r =>
      have hrun := run_readMemo_clean (k := k) hm hdirty hresult
      refine .intro fun hr => ?_
      have hs := hk.closed.sane hr
      have hstep := Step.reuse code hm hdirty hresult computed
      obtain ⟨m', hm', hbare⟩ := (World.SameNodes.trackedIn w m.runtime (.memo n) .value).memo? hm
      have hresult' : m'.result = some r := by rw [Memo.of_bare hbare, hresult]
      have hreader : ((w.trackedIn m.runtime (.memo n) .value).note (.recalled n)).currentReader
          m.runtime = w.currentReader m.runtime :=
        (World.Calm.trackedIn w m.runtime (.memo n) .value).currentReader m.runtime
      have hf : Runs R (.reading (((w.trackedIn m.runtime (.memo n) .value).note
          (.recalled n)).currentReader m.runtime) n :: g) g g (finishRead k m.runtime n r) _
          ((w.trackedIn m.runtime (.memo n) .value).note (.recalled n)) :=
        hk.runs_finishRead code hm' hresult'
      rw [hreader] at hf
      refine .step hk.closed _ hstep hrun (hf.mono fun r' w' _ he ⟨h, hread⟩ => ?_)
      subst h
      have hvalid := (hs.world.memos n m hm).2.2.1 r' hresult
      refine ⟨(hvalid.mono hstep.extends).mono he, fun x hx => ?_⟩
      exact (hread x (hreader.trans hx)).mono hstep.extends (.refl w')

end Read

end Reactivity
