import Reactivity.Proofs.Updates.Stack

namespace Reactivity

namespace Config.Orderly

variable {w w' : World} {g g' : List Frame} {u : Bool} {f f' : Frame}

theorem same (h : Config.Orderly ⟨w, g, u⟩) (he : w.Extends w') (hs : w.Still w')
    (contents : ∀ id before, .changing id before ∈ g →
      (w'.array id).cells = (w.array id).cells) : Config.Orderly ⟨w', g, u⟩ := by
  refine h.of_still hs rfl (h.layered.mono (undisturbed_of_suffix he)) (fun hu => ?_)
    (h.contents_of_eq contents)
  obtain ⟨hd, ht⟩ := h.interrupted hu
  exact ⟨undisturbed_of_suffix he hd, ht⟩

theorem push (h : Config.Orderly ⟨w, g, false⟩) (he : w.Extends w') (hs : w.Still w')
    (inert : f.isLasting = false) (fits : f.FitsOn (¬ Undisturbed w'.history) g)
    (contents : ∀ id before, .changing id before ∈ g →
      (w'.array id).cells = (w.array id).cells) : Config.Orderly ⟨w', f :: g, false⟩ := by
  refine h.of_still hs (List.filter_cons_of_neg (by simp [inert])) ⟨fits, ?_⟩ nofun
    (h.contents_of_eq contents)
  exact h.layered.mono (undisturbed_of_suffix he)

theorem pop (h : Config.Orderly ⟨w, f :: g, u⟩) (he : w.Extends w') (hs : w.Still w')
    (inert : f.isLasting = false)
    (contents : ∀ id before, .changing id before ∈ g →
      (w'.array id).cells = (w.array id).cells) : Config.Orderly ⟨w', g, u⟩ := by
  refine h.of_still hs (List.filter_cons_of_neg (by simp [inert])).symm
    (h.layered.2.mono (undisturbed_of_suffix he)) (fun hu => ?_)
    (h.contents_of_eq fun id before hm => ?_)
  · obtain ⟨hd, ht⟩ := h.interrupted hu
    exact ⟨undisturbed_of_suffix he hd, fun x hx => ht x (List.mem_cons_of_mem _ hx)⟩
  · rcases List.mem_cons.1 hm with rfl | hm
    · cases inert
    · exact contents id before hm

theorem exchange (h : Config.Orderly ⟨w, f :: g, false⟩) (he : w.Extends w') (hs : w.Still w')
    (inert : f.isLasting = false) (inert' : f'.isLasting = false)
    (fits : ∀ disturbed, f.FitsOn disturbed g → f'.FitsOn disturbed g)
    (contents : ∀ id before, .changing id before ∈ g →
      (w'.array id).cells = (w.array id).cells) : Config.Orderly ⟨w', f' :: g, false⟩ := by
  have h' := h.pop he hs inert contents
  exact h'.push (.refl _) (.refl _) inert' ((fits _ h.layered.1).mono (undisturbed_of_suffix he))
    fun _ _ _ => rfl

/-- A frame that is not about a change becomes another one, be it while an interrupt is on its way. -/
theorem exchangeCalm (h : Config.Orderly ⟨w, f :: g, u⟩) (he : w.Extends w') (hs : w.Still w')
    (inert : f.isLasting = false) (inert' : f'.isLasting = false) (calm : ¬ f'.Triggers)
    (fits : ∀ disturbed, f.FitsOn disturbed g → f'.FitsOn disturbed g)
    (contents : ∀ id before, .changing id before ∈ g →
      (w'.array id).cells = (w.array id).cells) : Config.Orderly ⟨w', f' :: g, u⟩ := by
  have h' := h.pop he hs inert contents
  refine h'.of_still (.refl _) (List.filter_cons_of_neg (by simp [inert'])) ⟨?_, h'.layered⟩
    (fun hu => ?_) (h'.contents_of_eq fun _ _ _ => rfl)
  · exact (fits _ h.layered.1).mono (undisturbed_of_suffix he)
  · obtain ⟨hd, ht⟩ := h'.interrupted hu
    exact ⟨hd, List.forall_mem_cons.2 ⟨calm, ht⟩⟩

/-- While the change of an array as a whole is being computed, nothing is written. -/
theorem not_changing (h : Config.Orderly ⟨w, g, u⟩) {write : Write} {old : List Event}
    (hr : w'.Regular) (hw : write.changed ≠ []) (ho : .wrote write :: old <:+ w'.history)
    (hb : changesBegun old = changesBegun w.history)
    (hend : changesEnded old = changesEnded w.history) (id : ArrayId) (before : List Value) :
    .changing id before ∉ g := by
  intro hm
  have hpos : 0 < g.countP Frame.isChange := List.countP_pos_iff.2 ⟨_, hm, rfl⟩
  have hle := hr.changes write hw old ho
  have hc := h.changes
  simp only at hc
  omega

theorem reuse_not_mem_actives (h : Config.Orderly ⟨w, g, u⟩) {n : NodeId} {rt : RuntimeId}
    (hr : ((w.trackedIn rt (.memo n) .value).note (.recalled n)).Regular)
    (hm : (((w.trackedIn rt (.memo n) .value).note (.recalled n)).memo? n).isSome) :
    n ∉ actives g := by
  intro hn
  refine hr.memos n hm _ (.inr (List.suffix_refl _)) ?_
  rw [World.history_trackedIn]
  exact (h.started n hn).append (by simp)

theorem beginCompute_not_mem_actives (h : Config.Orderly ⟨w, g, u⟩) {n : NodeId} {rt : RuntimeId}
    (hr : ((w.trackedIn rt (.memo n) .value).computing n rt).Regular)
    (hm : (((w.trackedIn rt (.memo n) .value).computing n rt).memo? n).isSome) :
    n ∉ actives g := by
  intro hn
  have hh := (w.trackedIn rt (.memo n) .value).history_computing n rt
  refine hr.memos n hm _ (.inl ⟨[], hh.symm⟩) ?_
  rw [World.history_trackedIn]
  exact Open.cons (Open.append (h.started n hn) (by simp)) nofun

theorem start (h : Config.Orderly ⟨w, g, false⟩) {n : NodeId}
    (he : w.Extends w') (active : actives (f :: g) = n :: actives g) (other : f.isChange = false)
    (flush : ∀ rt, .flushing rt ≠ f)
    (running : ∀ m, w'.isRunning m ↔ w.isRunning m ∨ ∃ rt, .running m rt = f)
    (past : ∃ new : List Event, w'.history = .started n :: (new ++ w.history) ∧
      ∀ e ∈ new, ¬ e.Delimits)
    (flushing : ∀ rt, (w.runtime rt).flushing → (w'.runtime rt).flushing)
    (fits : f.FitsOn (¬ Undisturbed w'.history) g) (content : w.SameContent w') :
    Config.Orderly ⟨w', f :: g, false⟩ := by
  obtain ⟨new, hnew, hd⟩ := past
  have hd' : ∀ e ∈ (.started n :: new), ¬ e.Delimits := by
    intro e hm
    rcases List.mem_cons.1 hm with rfl | hm
    · exact id
    · exact hd e hm
  have hbase : Config.Orderly ⟨{ w with history := w'.history }, g, false⟩ :=
    h.of_still ⟨fun _ => rfl, ⟨.started n :: new, hnew, hd'⟩, fun _ => id⟩ rfl
      (h.layered.mono fun hd hu => hd (hu.of_suffix he.history)) nofun h.contents
  refine ⟨⟨fits, hbase.layered⟩, nofun, fun m hm => ?_, fun m => ?_, fun rt hf => ?_, ?_, ?_⟩
  · rw [active] at hm
    rcases List.mem_cons.1 hm with rfl | hm
    · simp only [hnew]
      exact open_started m _
    · exact hbase.started m hm
  · rw [running, h.running]
    simp only [List.mem_cons, exists_or]
    exact or_comm
  · exact flushing rt (h.flushing rt ((List.mem_cons.1 hf).resolve_left (flush rt)))
  · rw [List.countP_cons_of_neg (by simp [other])]
    exact hbase.changes
  · intro id before hm
    rcases List.mem_cons.1 hm with rfl | hm
    · cases other
    · obtain ⟨current, hcells, hsame⟩ := h.contents id before hm
      exact ⟨current, (content.2 id).trans hcells, hsame⟩

theorem finish (h : Config.Orderly ⟨w, f :: g, u⟩) {n : NodeId} (he : w.Extends w')
    (active : actives (f :: g) = n :: actives g) (apart : n ∉ actives g)
    (other : f.isChange = false)
    (running : ∀ m, w'.isRunning m ↔ w.isRunning m ∧ ∀ rt, .running m rt ≠ f)
    (history : w'.history = w.history ∨ w'.history = .finished n :: w.history)
    (flushing : ∀ rt, (w.runtime rt).flushing → (w'.runtime rt).flushing)
    (content : w.SameContent w') : Config.Orderly ⟨w', g, u⟩ := by
  have hmem {x : Frame} (hx : x ∈ g) : x ∈ f :: g := List.mem_cons_of_mem _ hx
  refine ⟨h.layered.2.mono (undisturbed_of_suffix he), fun hu => ?_, fun m hm => ?_, fun m => ?_,
    fun rt hf => flushing rt (h.flushing rt (hmem hf)), ?_, fun id before hm => ?_⟩
  · obtain ⟨hd, ht⟩ := h.interrupted hu
    exact ⟨undisturbed_of_suffix he hd, fun x hx => ht x (hmem hx)⟩
  · have ho := h.started m (active ▸ List.mem_cons_of_mem _ hm)
    simp only at ho ⊢
    rcases history with hh | hh
    · rwa [hh]
    · rw [hh]
      exact ho.cons fun hf => apart (Event.finished.inj hf ▸ hm)
  · rw [running, h.running]
    simp only [List.mem_cons, exists_or]
    constructor
    · rintro ⟨⟨rt, hf⟩ | hg, hne⟩
      · exact absurd hf (hne rt)
      · exact hg
    · rintro ⟨rt, hg⟩
      refine ⟨.inr ⟨rt, hg⟩, fun rt' hf => apart ?_⟩
      have hm : m ∈ actives g := mem_actives.2 (.inl ⟨rt, hg⟩)
      rw [← hf] at active
      exact (List.cons.inj active).1 ▸ hm
  · have hc := h.changes
    rw [List.countP_cons_of_neg (by simp [other])] at hc
    rcases history with hh | hh
    · simpa only [hh] using hc
    · simpa only [hh, changesBegun, changesEnded, List.countP_cons, Bool.false_eq_true, if_false,
        Nat.add_zero] using hc
  · obtain ⟨current, hcells, hsame⟩ := h.contents id before (hmem hm)
    exact ⟨current, (content.2 id).trans hcells, hsame⟩

end Config.Orderly

theorem Config.Sane.reader_mem_actives {w : World} {g : List Frame} {u : Bool}
    (h : Config.Sane ⟨w, g, u⟩) {n : NodeId} {m : Memo} (memo : w.memo? n = some m) :
    ∀ x, w.currentReader m.runtime = some x → x ∈ actives g :=
  fun _ hx => h.currentReader_mem_actives (h.world.memos n m memo).1 hx

theorem World.isRunning_modifyEffect (w : World) (m n : NodeId) (f : Effect → Effect) :
    (w.modifyEffect m f).isRunning n =
      if m = n then ((w.effect? n).map f).any (·.running) else w.isRunning n := by
  rw [isRunning, effect?_modifyEffect]
  split <;> rfl

theorem World.isRunning_clearedOf (w : World) (m n : NodeId) :
    (w.clearedOf m).isRunning n = w.isRunning n :=
  (World.Still.clearedOf w m).running n

theorem World.isRunning_running (w : World) {n : NodeId} (hn : (w.effect? n).isSome)
    (rt : RuntimeId) (m : NodeId) : (w.running n rt).isRunning m ↔ w.isRunning m ∨ n = m := by
  have hc := w.isRunning_clearedOf n m
  have he := (World.Extends.clearedOf w n).isSome_effect? hn
  rw [← hc]
  change (((w.clearedOf n).pushContext rt (some n)).modifyEffect n _).isRunning m = true ↔ _
  rw [isRunning_modifyEffect]
  split
  · next hnm =>
    subst hnm
    obtain ⟨e, he⟩ := Option.isSome_iff_exists.1 he
    have he' : ((w.clearedOf n).pushContext rt (some n)).effect? n = some e := he
    simp [he']
  · next hnm => simp [hnm]; rfl

theorem World.isRunning_stopped (w : World) (n : NodeId) (rt : RuntimeId) (m : NodeId) :
    (w.stopped n rt).isRunning m ↔ w.isRunning m ∧ n ≠ m := by
  change (w.modifyEffect n _).isRunning m = true ↔ _
  rw [isRunning_modifyEffect]
  split
  · next hnm => cases w.effect? m <;> simp [hnm]
  · next hnm => simp [hnm]

theorem World.isRunning_ran (w : World) (n : NodeId) (rt : RuntimeId) (m : NodeId) :
    (w.ran n rt).isRunning m ↔ w.isRunning m ∧ n ≠ m := by
  change (((w.modifyEffect n _).note (.finished n)).modifyEffect n _).isRunning m = true ↔ _
  rw [isRunning_modifyEffect]
  change (if n = m then (((w.modifyEffect n _).effect? m).map _).any _
    else (w.modifyEffect n _).isRunning m) = true ↔ _
  rw [isRunning_modifyEffect, effect?_modifyEffect]
  split
  · next hnm => cases w.effect? m <;> simp [hnm]
  · next hnm => simp [hnm]

theorem World.flushing_popContext (w : World) (rt rt' : RuntimeId)
    (h : (w.runtime rt').flushing) : ((w.popContext rt).runtime rt').flushing :=
  (World.Still.modifyRuntime w rt (f := fun r => { r with context := r.context.tail })
    fun _ => id).flushing rt' h

theorem World.isRunning_computed (w : World) (n : NodeId) (rt : RuntimeId) (r : Result) (m : NodeId) :
    (w.computed n rt r).isRunning m = w.isRunning m :=
  (World.Still.modifyMemo ((w.popContext rt).note (.finished n)) n _).running m

theorem Aside.array_eq {w w' : World} (h : Aside w w') (id : ArrayId) :
    w'.array id = w.array id := by
  cases h with
  | cancel sub _ =>
    obtain ⟨_, _, h⟩ := w.cancelled_eq sub
    rw [h]
    rfl
  | _ => rfl

theorem Edit.still {w w' : World} {write : Write} (h : Edit w write w') : w.Still w' := by
  have hn : w.Still (w.note (.wrote write)) := .note w id
  cases h <;> exact hn.trans (.of_eq rfl rfl rfl)

namespace Config.Orderly

variable {w w' : World} {g : List Frame} {u : Bool}

/-- The cells of an array that is being changed as a whole hold values, so that none of them can be
turned into a container. -/
theorem resolveArray (h : Config.Orderly ⟨w, g, u⟩) {id : ArrayId} {cells : List Cell}
    (resolved : List.Forall₂ (Cell.Resolved w) (w.array id).cells cells) (id' : ArrayId)
    (before : List Value) (hm : .changing id' before ∈ g) :
    ((w.modifyArray id fun a => { a with cells := cells }).array id').cells =
      (w.array id').cells := by
  obtain ⟨current, hcells, -⟩ := h.contents id' before hm
  rw [World.array_modifyArray]
  split
  · next hid =>
    obtain ⟨rfl, -⟩ := hid
    exact mapM_value?_of_resolved resolved (mapM_value?_eq_some.2 hcells)
  · rfl

theorem beginChange (h : Config.Orderly ⟨w, g, false⟩) (code : AtCode g) {id : ArrayId}
    {before : List Value} (content : (w.array id).cells = before.map .value) :
    Config.Orderly ⟨w.note (.changeBegan id), .changing id before :: g, false⟩ := by
  have he := World.Extends.note w (.changeBegan id)
  refine ⟨⟨code, h.layered.mono (undisturbed_of_suffix he)⟩, nofun, fun n hn => ?_, fun n => ?_,
    fun rt hf => h.flushing rt ((List.mem_cons.1 hf).resolve_left nofun), ?_, fun id' b hm => ?_⟩
  · exact (h.started n hn).cons nofun
  · exact (h.running n).trans (by simp)
  · have hc := h.changes
    rw [List.countP_cons_of_pos rfl]
    simp only [changesBegun, changesEnded, World.history_note, List.countP_cons] at hc ⊢
    simp only [if_true, Bool.false_eq_true, if_false]
    omega
  · rcases List.mem_cons.1 hm with heq | hm
    · obtain ⟨rfl, rfl⟩ := Frame.changing.inj heq
      exact ⟨b, content, .refl b⟩
    · exact h.contents id' b hm

theorem abandonChange {id : ArrayId} {before : List Value}
    (h : Config.Orderly ⟨w, .changing id before :: g, u⟩) :
    Config.Orderly ⟨w.note (.changeEnded id), g, u⟩ := by
  have he := World.Extends.note w (.changeEnded id)
  have hmem {x : Frame} (hx : x ∈ g) : x ∈ .changing id before :: g := List.mem_cons_of_mem _ hx
  refine ⟨h.layered.2.mono (undisturbed_of_suffix he), fun hu => ?_, fun n hn => ?_, fun n => ?_,
    fun rt hf => h.flushing rt (hmem hf), ?_, fun id' b hm => h.contents id' b (hmem hm)⟩
  · obtain ⟨hd, ht⟩ := h.interrupted hu
    exact ⟨undisturbed_of_suffix he hd, fun x hx => ht x (hmem hx)⟩
  · exact (h.started n hn).cons nofun
  · exact (h.running n).trans (by simp)
  · have hc := h.changes
    rw [List.countP_cons_of_pos rfl] at hc
    simp only [changesBegun, changesEnded, World.history_note, List.countP_cons] at hc ⊢
    simp only [if_true, Bool.false_eq_true, if_false]
    omega

theorem endChange {id : ArrayId} {before after : List Value} {rt : RuntimeId}
    (h : Config.Orderly ⟨w, .changing id before :: g, false⟩)
    (hr : (((w.note (.changeEnded id)).note (.wrote (.items id before after))).modifyArray id
      fun a => { a with cells := after.map .value }).Regular) :
    Config.Orderly ⟨((w.note (.changeEnded id)).note (.wrote (.items id before after))).modifyArray
      id fun a => { a with cells := after.map .value },
      .writing rt (.array id) (changedKeys before after) :: g, false⟩ := by
  have h₁ := h.abandonChange
  have he : (w.note (.changeEnded id)).Extends
      (((w.note (.changeEnded id)).note (.wrote (.items id before after))).modifyArray id
        fun a => { a with cells := after.map .value }) :=
    (World.Extends.note _ _).trans (.modifyArray _ _ fun _ => rfl)
  have hstill : (w.note (.changeEnded id)).Still
      (((w.note (.changeEnded id)).note (.wrote (.items id before after))).modifyArray id
        fun a => { a with cells := after.map .value }) :=
    (World.Still.note _ (e := .wrote (.items id before after)) fun h => h).trans (.of_eq rfl rfl rfl)
  refine h₁.of_still hstill rfl ⟨.inl h.layered.1, h₁.layered.mono (undisturbed_of_suffix he)⟩ nofun
    fun id' b hm => ?_
  -- Another change is under way, so that this one leaves every value the same.
  have hsame : SameValues before after := by
    refine changedKeys_eq_nil (by_contra fun hne => ?_)
    have hw : (Write.items id before after).changed ≠ [] := hne
    exact h₁.not_changing hr hw (List.suffix_refl _) rfl rfl id' b hm
  obtain ⟨current, hcells, hcurrent⟩ := h.contents id before (List.mem_cons_self ..)
  obtain ⟨current', hcells', hcurrent'⟩ := h.contents id' b (List.mem_cons_of_mem _ hm)
  rw [World.array_modifyArray]
  split
  · next hid =>
    obtain ⟨rfl, -⟩ := hid
    have heq : current' = current :=
      List.map_injective_iff.2 (fun _ _ hv => Cell.value.inj hv) (hcells'.symm.trans hcells)
    subst heq
    exact ⟨after, rfl, hcurrent'.trans (hcurrent.symm.trans hsame)⟩
  · exact ⟨current', hcells', hcurrent'⟩

theorem beginFlush (h : Config.Orderly ⟨w, g, false⟩) (code : AtCode g) {rt : RuntimeId}
    (valid : rt < w.runtimes.size) (idle : (w.runtime rt).flushing = false) :
    Config.Orderly ⟨(w.note (.flushBegan rt)).modifyRuntime rt fun r =>
      { r with flushing := true, flushRequested := false }, .flushing rt :: g, false⟩ := by
  have he : w.Extends ((w.note (.flushBegan rt)).modifyRuntime rt fun r =>
      { r with flushing := true, flushRequested := false }) :=
    (World.Extends.note w _).trans (.modifyRuntime _ _ fun _ => ⟨rfl, rfl⟩)
  have hs : w.Still ((w.note (.flushBegan rt)).modifyRuntime rt fun r =>
      { r with flushing := true, flushRequested := false }) :=
    (World.Still.note w id).trans (.modifyRuntime _ rt fun _ _ => rfl)
  have hbase := h.same he hs fun _ _ _ => rfl
  have hnot : .flushing rt ∉ g := fun hm => by
    rw [h.flushing rt hm] at idle
    cases idle
  refine ⟨⟨⟨code, hnot, fun hg hu => ?_⟩, hbase.layered⟩, nofun, hbase.started, fun n => ?_,
    fun rt' hm => ?_, ?_, fun id b hm => hbase.contents id b ((List.mem_cons.1 hm).resolve_left nofun)⟩
  · obtain ⟨n, hn⟩ := List.exists_mem_of_ne_nil _ hg
    exact hu.flushes rt _ (List.suffix_refl _) n (h.started n hn)
  · exact (hbase.running n).trans (by simp)
  · rcases List.mem_cons.1 hm with heq | hm
    · obtain rfl := Frame.flushing.inj heq
      simp only [World.runtime_modifyRuntime]
      rw [if_pos ⟨trivial, valid⟩]
    · exact hbase.flushing rt' hm
  · exact hbase.changes

theorem endFlush {rt : RuntimeId} (h : Config.Orderly ⟨w, .flushing rt :: g, u⟩) :
    Config.Orderly
      ⟨(w.modifyRuntime rt fun r => { r with flushing := false }).note (.flushEnded rt), g, u⟩ := by
  have he : w.Extends
      ((w.modifyRuntime rt fun r => { r with flushing := false }).note (.flushEnded rt)) := by
    refine .trans ?_ (.note _ _)
    exact .modifyRuntime w rt fun _ => ⟨rfl, rfl⟩
  have hmem {x : Frame} (hx : x ∈ g) : x ∈ .flushing rt :: g := List.mem_cons_of_mem _ hx
  refine ⟨h.layered.2.mono (undisturbed_of_suffix he), fun hu => ?_, fun n hn => ?_, fun n => ?_,
    fun rt' hm => ?_, ?_, fun id b hm => h.contents id b (hmem hm)⟩
  · obtain ⟨hd, ht⟩ := h.interrupted hu
    exact ⟨undisturbed_of_suffix he hd, fun x hx => ht x (hmem hx)⟩
  · exact (h.started n hn).cons nofun
  · exact (h.running n).trans (by simp)
  · have hne : rt ≠ rt' := fun heq => h.layered.1.2.1 (heq ▸ hm)
    have hf := h.flushing rt' (hmem hm)
    change ((w.modifyRuntime rt fun r => { r with flushing := false }).runtime rt').flushing = true
    rwa [World.runtime_modifyRuntime, if_neg fun hh => hne hh.1]
  · have hc := h.changes
    rw [List.countP_cons_of_neg Bool.false_ne_true] at hc
    simpa only [changesBegun, changesEnded, World.history_note, World.history_modifyRuntime,
      List.countP_cons, Bool.false_eq_true, if_false, Nat.add_zero] using hc

end Config.Orderly

theorem Config.Orderly.ran {w : World} {g : List Frame} {u : Bool} {n : NodeId} {rt : RuntimeId}
    (h : Config.Orderly ⟨w, .running n rt :: g, u⟩) (he : w.Extends (w.ran n rt)) :
    Config.Orderly ⟨w.ran n rt, g, u⟩ := by
  obtain ⟨⟨-, hn⟩, -⟩ := h.layered
  refine h.finish he rfl hn rfl (fun k => ?_) (.inr rfl) (World.flushing_popContext w rt)
    (.of_eq rfl rfl)
  rw [World.isRunning_ran]
  exact and_congr_right fun _ => ⟨fun hk _ hf => hk (Frame.running.inj hf).1.symm,
    fun hk hnk => hk rt (hnk ▸ rfl)⟩

theorem Config.Sane.not_mem_actives {w : World} {f : Frame} {g : List Frame} {u u' : Bool}
    (hc : Config.Sane ⟨w, f :: g, u⟩) (ho : Config.Orderly ⟨w, g, u'⟩) {n : NodeId} {e : Effect}
    (effect : w.effect? n = some e) (idle : e.running = false) : n ∉ actives g := by
  rw [mem_actives]
  rintro (⟨rt, hm⟩ | ⟨rt, start, hm⟩)
  · have hrun := (ho.running n).2 ⟨rt, hm⟩
    simp [World.isRunning, effect, idle] at hrun
  · obtain ⟨-, hmemo⟩ := hc.frames _ (List.mem_cons_of_mem _ hm)
    rw [World.memo?_eq_none_of_effect? (Option.isSome_of_eq_some effect)] at hmemo
    cases hmemo

theorem Step.orderly {c c' : Config} (h : Step c c') (hc : c.Sane) (ho : c.Orderly)
    (hr : c'.world.Regular) : c'.Orderly := by
  have he := h.extends
  cases h with
  | aside h => exact ho.same he h.still fun id _ _ => by rw [h.array_eq]
  | track _ _ _ _ _ =>
    exact ho.same he (.trackedBy ..) fun id _ _ => (World.SameContent.trackedBy ..).2 id
  | see _ _ _ _ _ _ _ => exact ho.same he (.note _ id) fun _ _ _ => rfl
  | newObject _ _ _ =>
    exact ho.same he ((World.Still.note _ id).trans (.of_eq rfl rfl rfl)) fun _ _ _ => rfl
  | newArray _ _ _ =>
    refine ho.same he ((World.Still.note _ id).trans (.of_eq rfl rfl rfl)) fun id b hm => ?_
    have hid : id < _ := (hc.frames _ hm).1
    simp [World.array, Array.getElem?_push, Nat.ne_of_lt hid]
  | resolveObject _ _ => exact ho.same he (.of_eq rfl rfl rfl) fun _ _ _ => rfl
  | resolveArray _ resolved => exact ho.same he (.of_eq rfl rfl rfl) (ho.resolveArray resolved)
  | @write w w' g rt write code _ _ edit =>
    have hh := edit.history
    have hstill : w.Still w' := edit.still
    refine ho.push he hstill rfl (.inl code) fun id b hm => ?_
    exact absurd hm (ho.not_changing hr edit.changed_ne_nil (hh ▸ List.suffix_refl _) rfl rfl id b)
  | beginChange code _ _ content => exact ho.beginChange code content
  | endChange _ _ => exact ho.endChange hr
  | abandonChange => exact ho.abandonChange
  | @trigger w g rt h key keys =>
    have hcont := (World.SameContent.taken w h key).2
    have h₁ : Config.Orderly ⟨w.taken h key, .writing rt h keys :: g, false⟩ :=
      ho.exchange he (.taken w h key) rfl rfl (fun _ hf => hf) fun id _ _ => hcont id
    exact h₁.push (.refl _) (.refl _) rfl (.inr (.inr ⟨rt, h, keys, g, rfl⟩)) fun _ _ _ => rfl
  | written | told => exact ho.pop he (.refl _) rfl fun _ _ _ => rfl
  | tellDisposed _ | tellQueued _ _ =>
    exact ho.exchange he (.refl _) rfl rfl (fun _ hf => hf) fun _ _ _ => rfl
  | @tellEffect w g rt n ns _ _ =>
    refine ho.exchange he (.queuedIn w rt n) rfl rfl (fun _ hf => hf) fun id _ _ => ?_
    exact (World.SameContent.queuedIn w rt n).2 id
  | tellDirty _ _ =>
    exact ho.exchange he (.modifyMemo _ _ _) rfl rfl (fun _ hf => hf) fun _ _ _ => rfl
  | @tellClean w g rt n ns m _ _ =>
    have h₁ : Config.Orderly ⟨w.madeDirty n, .telling rt ns :: g, false⟩ :=
      ho.exchange he (.modifyMemo w n _) rfl rfl (fun _ hf => hf) fun _ _ _ => rfl
    exact h₁.push (.refl _) (.refl _) rfl (.inr ⟨rt, ns, g, rfl⟩) fun _ _ _ => rfl
  | @schedule w g n e _ _ _ _ _ _ =>
    refine ho.same he ((World.Still.note w id).trans (.queuedIn ..)) fun id _ _ => ?_
    exact (World.SameContent.queuedIn (w.note (.scheduled n)) e.runtime n).2 id
  | markDirty _ _ _ =>
    exact ho.same he ((World.Still.note _ id).trans (.modifyMemo _ _ _)) fun _ _ _ => rfl
  | markClean code _ _ _ =>
    exact ho.push he ((World.Still.note _ id).trans (.modifyMemo _ _ _)) rfl (.inl code)
      fun _ _ _ => rfl
  | newMemo _ _ _ => exact ho.same he (.pushNode _ (by simp)) fun _ _ _ => rfl
  | @reuse w g n m r code memo _ _ _ =>
    have hn : n ∉ actives g :=
      ho.reuse_not_mem_actives hr (he.isSome_memo? (Option.isSome_of_eq_some memo))
    refine ho.push he ((World.Still.trackedIn ..).trans (.note _ id)) rfl
      ⟨code, hn, hc.reader_mem_actives memo⟩ fun id _ _ => ?_
    exact (World.SameContent.trackedIn w m.runtime (.memo n) .value).2 id
  | @beginCompute w g n m code memo stale _ =>
    have hn : n ∉ actives g :=
      ho.beginCompute_not_mem_actives hr (he.isSome_memo? (Option.isSome_of_eq_some memo))
    have h₁ := ho.push (f := .reading (w.currentReader m.runtime) n) (.refl w) (.refl w) rfl
      ⟨code, hn, hc.reader_mem_actives memo⟩ fun _ _ _ => rfl
    have hstill := (World.Still.trackedIn w m.runtime (.memo n) .value).trans
      (.computing _ n m.runtime)
    refine h₁.start he rfl rfl (by simp) (fun k => ?_) ?_ hstill.flushing ⟨hn, _, _, rfl⟩
      ((World.SameContent.trackedIn ..).trans (.computing ..))
    · rw [hstill.running]
      exact (or_iff_left (by simp)).symm
    · rw [World.history_computing, World.history_trackedIn]
      exact ⟨.cleared n :: _, rfl, by simp [Event.Delimits]⟩
  | @endCompute w g n rt start since r _ _ _ =>
    obtain ⟨⟨hn, -⟩, -⟩ := ho.layered
    refine ho.finish he rfl hn rfl (fun k => ?_) (.inr rfl) (World.flushing_popContext w rt)
      (.of_eq rfl rfl)
    rw [World.isRunning_computed]
    exact (and_iff_left (by simp)).symm
  | @abandonCompute w g n rt start =>
    obtain ⟨⟨hn, -⟩, -⟩ := ho.layered
    exact ho.finish he rfl hn rfl (fun k => (and_iff_left (by simp)).symm) (.inl rfl)
      (World.flushing_popContext w rt) (.of_eq rfl rfl)
  | @endReading w g n reader m r _ _ =>
    refine ho.pop he (.gotBy ..) rfl fun id _ _ => ?_
    exact (World.SameContent.gotBy w reader n r).2 id
  | newEffect code _ _ _ _ _ =>
    refine ho.push he (.pushNode _ ?_) rfl code fun _ _ _ => rfl
    rintro e ⟨⟩
    rfl
  | newStore code _ _ => exact ho.push he (.withStore ..) rfl code fun _ _ _ => rfl
  | @addCleanup w g rt n e c _ _ _ _ _ _ =>
    refine ho.same he ((World.Still.note w (e := .cleanupAdded n c) id).trans ?_) fun _ _ _ => rfl
    exact .modifyEffect _ _ fun _ => rfl
  | @beginCleaning w g n e _ =>
    exact ho.push he (.cleaning ..) rfl (.inr ⟨g, rfl⟩) fun _ _ _ => rfl
  | @endCleaning w g n rt =>
    have hpop : w.Still (w.popContext rt) := .modifyRuntime w rt fun _ => id
    exact ho.pop he (hpop.trans (.note _ id)) rfl fun _ _ _ => rfl
  | abandonCleaning _ => exact ho.pop he (.modifyRuntime _ _ fun _ => id) rfl fun _ _ _ => rfl
  | skipPending _ => exact ho.pop he (.refl _) rfl fun _ _ _ => rfl
  | @clearRunning w g n e _ _ =>
    exact ho.pop he (.clearedOf w n) rfl fun id _ _ => (World.SameContent.clearedOf w n).2 id
  | @beginRun w g n rt f e effect idle _ turn _ =>
    have hsome : (w.effect? n).isSome := Option.isSome_of_eq_some effect
    have hbelow : AtCode g ∨ ∃ rt batch g', g = .round rt batch :: g' := by
      rcases turn with ⟨rfl, -⟩ | ⟨rfl, -⟩
      · exact .inr ho.layered.1
      · exact .inl ho.layered.1
    have h₁ := ho.pop (.refl w) (.refl w) (by rcases turn with ⟨rfl, -⟩ | ⟨rfl, -⟩ <;> rfl)
      fun _ _ _ => rfl
    have hn := hc.not_mem_actives h₁ effect idle
    refine h₁.start he rfl rfl (by simp) (fun k => ?_)
      ⟨[.cleared n], World.history_running w n rt, by simp [Event.Delimits]⟩ ?_ ⟨hbelow, hn⟩
      (.running ..)
    · rw [World.isRunning_running w hsome]
      refine or_congr_right ⟨fun hk => ⟨rt, hk ▸ rfl⟩, ?_⟩
      rintro ⟨rt', hk⟩
      exact (Frame.running.inj hk).1.symm
    · have hpush : (w.clearedOf n).Still ((w.clearedOf n).pushContext rt (some n)) :=
        .modifyRuntime _ rt fun _ => id
      exact ((World.Still.clearedOf w n).trans hpush).flushing
  | @endRun w g n rt _ => exact ho.ran he
  | @beginWatch w g n rt e _ _ => exact ho.push he (.refl _) rfl ⟨rt, g, rfl⟩ fun _ _ _ => rfl
  | advance h =>
    exact ho.exchange he (.note _ h.not_delimits) rfl rfl (fun _ => h.fitsOn) fun _ _ _ => rfl
  | keep _ _ _ =>
    exact ho.exchange he (.modifyEffect _ _ fun _ => rfl) rfl rfl (fun _ => id) fun _ _ _ => rfl
  | endReport => exact ho.pop he (.refl _) rfl fun _ _ _ => rfl
  | @watched w g n rt e id primed _ _ _ =>
    exact ho.push he (.refl _) rfl ⟨rt, g, rfl⟩ fun _ _ _ => rfl
  | @prime w g n e id _ _ =>
    exact ho.exchange he (.modifyEffect w n fun _ => rfl) rfl rfl (fun _ hf => hf) fun _ _ _ => rfl
  | skipPass _ _ _ => exact ho.exchange he (.refl _) rfl rfl (fun _ hf => hf) fun _ _ _ => rfl
  | @watchPass w g n rt batch e id _ _ _ _ =>
    have h₁ : Config.Orderly ⟨w, .notified n :: .running n rt :: .round rt batch :: g, false⟩ :=
      ho.exchange (.refl _) (.refl _) rfl rfl (fun _ hf => hf) fun _ _ _ => rfl
    exact h₁.push he (.passBegun w id) rfl (.inr trivial) fun _ _ _ => rfl
  | @watchPostpone w g n e id _ _ _ =>
    exact ho.exchange he (.passPostponed w id) rfl rfl (fun _ hf => hf) fun _ _ _ => rfl
  | @endWatch w g n rt _ =>
    have h₁ : Config.Orderly ⟨w, .running n rt :: g, false⟩ :=
      ho.pop (.refl _) (.refl _) rfl fun _ _ _ => rfl
    exact h₁.ran he
  | @abandonRun w g n rt =>
    obtain ⟨⟨-, hn⟩, -⟩ := ho.layered
    refine ho.finish he rfl hn rfl (fun k => ?_) (.inl rfl) (World.flushing_popContext w rt)
      (.of_eq rfl rfl)
    rw [World.isRunning_stopped]
    exact and_congr_right fun _ => ⟨fun hk _ hf => hk (Frame.running.inj hf).1.symm,
      fun hk hnk => hk rt (hnk ▸ rfl)⟩
  | @dispose w g n e code _ _ _ =>
    exact ho.push he ((World.Still.disposing w n).trans (.cleaning ..)) rfl (.inl code)
      fun id _ _ => (World.SameContent.disposing w n).2 id
  | @retire w g u n _ _ =>
    exact ho.same he ((World.Still.disposing w n).trans (.note _ id)) fun id _ _ =>
      (World.SameContent.disposing w n).2 id
  | mask code _ _ => exact ho.push he (.modifyRuntime _ _ fun _ => id) rfl code fun _ _ _ => rfl
  | unmask => exact ho.pop he (.modifyRuntime _ _ fun _ => id) rfl fun _ _ _ => rfl
  | @beginPass w g id code _ _ _ =>
    have hstill := (World.Still.note w (e := .passAsked id) (·)).trans (.passBegun _ id)
    exact ho.push he hstill rfl (.inl code) fun _ _ _ => rfl
  | endPass =>
    exact ho.exchangeCalm he (.passEnded ..) rfl rfl (fun h => h) (fun _ hf => hf) fun _ _ _ => rfl
  | @postpone w g id _ _ _ =>
    have hstill := (World.Still.note w (e := .passAsked id) (·)).trans (.passPostponed _ id)
    exact ho.same he hstill fun _ _ _ => rfl
  | settle _ => exact ho.pop he (.refl _) rfl fun _ _ _ => rfl
  | forgo _ => exact ho.pop he (.of_eq rfl rfl rfl) rfl fun _ _ _ => rfl
  | @takeUp w g id e _ _ _ =>
    have hstill : w.Still (w.modifyStore id fun s => { s with pending := false }) :=
      .of_eq rfl rfl rfl
    exact ho.exchange he (hstill.trans (.note _ (·))) rfl rfl (fun _ hf => hf.imp_right .inl)
      fun _ _ _ => rfl
  | passOver _ =>
    exact ho.exchangeCalm he (.refl _) rfl rfl (fun h => h) (fun _ hf => hf) fun _ _ _ => rfl
  | @beginCall w g id rt sub subs _ _ _ =>
    have h₁ : Config.Orderly ⟨w, .passing id rt subs :: g, false⟩ :=
      ho.exchange (.refl _) (.refl _) rfl rfl (fun _ hf => hf) fun _ _ _ => rfl
    exact h₁.push he (.callBegun w sub _) rfl (.inr trivial) fun _ _ _ => rfl
  | @subscribe w g id callback code _ _ _ =>
    have hmask : (w.withSubscription id callback).Still
        ((w.withSubscription id callback).pushContext (w.store id).runtime none) :=
      .modifyRuntime _ _ fun _ h => h
    have h₁ := ho.push (f := .masked (w.store id).runtime) he
      ((World.Still.withSubscription w id callback).trans hmask) rfl code fun _ _ _ => rfl
    exact h₁.push (.refl _) (.refl _) rfl trivial fun _ _ _ => rfl
  | @greet w g id sub _ _ =>
    have code : AtCode g := ho.layered.1
    have h₁ := ho.pop (.refl _) (.refl _) rfl fun _ _ _ => rfl
    exact h₁.push he (.callBegun w sub _) rfl (.inl code) fun _ _ _ => rfl
  | @endCall w g sub u => exact ho.pop he (.callEnded w sub) rfl fun _ _ _ => rfl
  | @newRuntime w g settings hook _ =>
    refine ho.same he ⟨fun _ => rfl, ⟨[], rfl, (by simp)⟩, fun rt hf => ?_⟩ fun _ _ _ => rfl
    have hrt : rt < w.runtimes.size := by
      by_contra hrt
      rw [World.runtime, Array.getElem?_eq_none (Nat.le_of_not_lt hrt)] at hf
      cases hf
    simpa [World.runtime, Array.getElem?_push, Nat.ne_of_lt hrt] using hf
  | beginFlush code _ valid idle _ =>
    exact ho.beginFlush (code.resolve_right fun h => (hr.of_extends he).hooks _ valid h.2) valid idle
  | @beginRound w g rt _ =>
    refine ho.push he ?_ rfl ⟨g, rfl⟩ fun _ _ _ => rfl
    refine .trans ?_ (.note _ id)
    exact .modifyRuntime w rt fun _ => id
  | @giveUp w s g rt _ frames =>
    have h₁ : Config.Orderly ⟨w, .flushing rt :: g, false⟩ := by
      rcases frames with rfl | ⟨rfl, -⟩
      · exact ho.pop (.refl _) (.refl _) rfl fun _ _ _ => rfl
      · exact ho
    refine h₁.same he ?_ fun _ _ _ => rfl
    refine .trans ?_ (.note _ id)
    exact .modifyRuntime w rt fun _ => id
  | skipTurn _ => exact ho.exchange he (.refl _) rfl rfl (fun _ hf => hf) fun _ _ _ => rfl
  | @beginTurn w g rt n batch _ =>
    have h₁ : Config.Orderly ⟨w.note (.turnBegan rt n), .round rt batch :: g, false⟩ :=
      ho.exchange he (.note w id) rfl rfl (fun _ hf => hf) fun _ _ _ => rfl
    exact h₁.push (.refl _) (.refl _) rfl ⟨rt, batch, g, rfl⟩ fun _ _ _ => rfl
  | endRound => exact ho.pop he (.refl _) rfl fun _ _ _ => rfl
  | endFlush _ => exact ho.endFlush
  | @throw w g message code =>
    have hd : ¬ Undisturbed (w.note (.threw message)).history := fun hu =>
      hu.threw message (List.mem_cons_self ..)
    exact ho.of_still (.note w id) rfl (ho.layered.mono fun _ => hd)
      (fun _ => ⟨hd, ho.layered.not_triggers_of_atCode code⟩) ho.contents
  | exhaust _ => exact absurd (List.mem_cons_self ..) hr.exhausted
  | @drop w g f droppable =>
    refine ho.pop he (.refl _) ?_ fun _ _ _ => rfl
    cases f <;> first | rfl | exact droppable.elim
  | resume => exact ho.of_still (.refl _) rfl ho.layered (by simp) ho.contents

end Reactivity
