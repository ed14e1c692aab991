import Reactivity.Proofs.Registration.Unread
import Reactivity.Proofs.Updates.Causes

namespace Reactivity

/-- The same memos are being read and computed. -/
structure SameReads (g g' : List Frame) : Prop where
  mem : ∀ f : Frame, f.Reads → (f ∈ g' ↔ f ∈ g)
  computings : computings g' = computings g

namespace SameReads

variable {f f' : Frame} {g g' g'' : List Frame}

theorem refl (g : List Frame) : SameReads g g :=
  ⟨fun _ _ => Iff.rfl, rfl⟩

theorem symm (h : SameReads g g') : SameReads g' g :=
  ⟨fun x hx => (h.mem x hx).symm, h.computings.symm⟩

theorem trans (h : SameReads g g') (h' : SameReads g' g'') : SameReads g g'' :=
  ⟨fun x hx => (h'.mem x hx).trans (h.mem x hx), h'.computings.trans h.computings⟩

theorem push (hf : ¬ f.Reads) : SameReads g (f :: g) where
  mem x hx := by
    rw [List.mem_cons]
    exact or_iff_right fun he => hf (he ▸ hx)
  computings := computings_cons hf g

theorem pop (hf : ¬ f.Reads) : SameReads (f :: g) g :=
  (push hf).symm

theorem exchange (hf : ¬ f.Reads) (hf' : ¬ f'.Reads) : SameReads (f :: g) (f' :: g) :=
  (pop hf).trans (push hf')

end SameReads

/-- What is still to be triggered is what the event has changed, and who is still to be told is
affected by it. -/
def Frame.Stems (w : World) (root : Event) (past : List Event) : Frame → Prop
  | .writing _ h keys => ∀ key ∈ keys,
      (∃ write, root = .wrote write ∧ write.handle = h ∧ key ∈ write.changed) ∨
        ∃ m, h = .memo m ∧ Affects root past m
  | .telling _ nodes => ∀ n ∈ nodes, w.IsClean n → Affects root past n
  | _ => True

/-- If nodes are being told of a change, it stems from one event, after which no function was
started and nothing was read. -/
def Config.Rooted (c : Config) : Prop :=
  (∃ f ∈ c.stack, f.Triggers) → ∃ since root past, c.world.history = since ++ root :: past ∧
    (∀ e ∈ since, e.actor? = none) ∧ root.actor? = none ∧ ∀ f ∈ c.stack, f.Stems c.world root past

/-- What the past says about the memos, and which of them are being computed. -/
structure Config.Reckoned (c : Config) : Prop where
  had : ∀ n, c.world.effect? n = none → .started n ∈ c.world.history →
    ∃ m, c.world.memo? n = some m ∧ (m.result = none → Open n c.world.history)
  begun : ∀ n, c.world.IsClean n → .started n ∈ c.world.history
  running : ∀ n, c.world.effect? n = none → (Open n c.world.history ↔ n ∈ computings c.stack)
  apart : (computings c.stack).Nodup
  start : ∀ n rt start, .computing n rt start ∈ c.stack → c.world.effect? n = none →
    c.world.history = sinceStart n c.world.history ++ start
  known : ∀ n, c.world.IsClean n → ∀ m, .tracked n (.memo m) .value ∈ sinceStart n c.world.history →
    (c.world.memo? m).isSome ∧ (.reading (some n) m ∈ c.stack ∨
      ∃ r, .saw n (.memo m) r ∈ sinceStart n c.world.history ∧
        .saw n (.memo m) r ∈ sinceStart m c.world.history)
  caused : ∀ n, c.world.isDirty n → .started n ∈ c.world.history → Caused n c.world.history
  once : ∀ n ∈ computings c.stack, ∀ m, c.world.effect? m = none →
    .started m ∈ sinceStart n c.world.history → c.world.IsClean m
  justified : ∀ n, c.world.effect? n = none → Justified n c.world.history
  single : ∀ n m, c.world.effect? n = none → c.world.effect? m = none →
    Single n m c.world.history
  rooted : c.Rooted

theorem Frame.Stems.mono {w w' : World} {root : Event} {past : List Event} {f : Frame}
    (h : f.Stems w root past) (clean : ∀ n, w'.IsClean n → w.IsClean n) : f.Stems w' root past := by
  cases f with
  | telling => exact fun n hn hc => h n hn (clean n hc)
  | _ => exact h

namespace Config.Rooted

variable {w w' : World} {g g' : List Frame} {u u' : Bool}

theorem of_calm (h : ∀ f ∈ g, ¬ f.Triggers) : Rooted ⟨w, g, u⟩ :=
  fun ⟨f, hf, ht⟩ => absurd ht (h f hf)

theorem of_root {root : Event} {past : List Event} {f : Frame} (hw : w.history = root :: past)
    (idle : root.actor? = none) (stems : f.Stems w root past) (calm : ∀ f ∈ g, ¬ f.Triggers) :
    Rooted ⟨w, f :: g, u⟩ := by
  refine fun _ => ⟨[], root, past, hw, List.forall_mem_nil _, idle, fun f' hf' => ?_⟩
  rcases List.mem_cons.1 hf' with rfl | hf'
  · exact stems
  · have hc := calm f' hf'
    cases f' <;> first | exact absurd trivial hc | trivial

theorem stay (h : Rooted ⟨w, g, u⟩) {l : List Event} (past : w'.history = l ++ w.history)
    (idle : ∀ e ∈ l, e.actor? = none) (triggers : (∃ f ∈ g', f.Triggers) → ∃ f ∈ g, f.Triggers)
    (stems : ∀ root past, (∀ f ∈ g, f.Stems w root past) → ∀ f ∈ g', f.Stems w' root past) :
    Rooted ⟨w', g', u'⟩ := by
  intro ht
  obtain ⟨since, root, old, hw, hs, hr, hf⟩ := h (triggers ht)
  refine ⟨l ++ since, root, old, ?_, fun e he => ?_, hr, stems root old hf⟩
  · rw [past, hw, List.append_assoc]
  · exact (List.mem_append.1 he).elim (idle e) (hs e)

end Config.Rooted

namespace Config.Reckoned

variable {w w' : World} {g g' : List Frame} {u u' : Bool}

theorem isClean_or_isDirty {n : NodeId} {m : Memo} (hm : w.memo? n = some m) :
    w.IsClean n ∨ w.isDirty n := by
  cases hd : m.dirty with
  | true => exact .inr (by rw [World.isDirty, hm]; exact hd)
  | false => exact .inl ⟨m, hm, hd⟩

theorem not_isClean_of_isDirty {n : NodeId} (h : w.isDirty n) : ¬ w.IsClean n := by
  rintro ⟨m, hm, hd⟩
  rw [World.isDirty, hm] at h
  exact absurd (h.symm.trans hd) (by simp)

theorem effect?_eq_none {n : NodeId} (h : (w.memo? n).isSome) : w.effect? n = none := by
  by_contra hs
  rw [World.memo?_eq_none_of_effect? (Option.isSome_iff_ne_none.2 hs)] at h
  cases h

theorem isSome_of_isClean {n : NodeId} (h : w.IsClean n) : (w.memo? n).isSome := by
  obtain ⟨m, hm, -⟩ := h
  exact Option.isSome_of_eq_some hm

theorem isSome_of_isDirty {n : NodeId} (h : w.isDirty n) : (w.memo? n).isSome := by
  rw [World.isDirty] at h
  cases hm : w.memo? n with
  | none => simp [hm] at h
  | some m => rfl

theorem start_append {n : NodeId} {history new start : List Event}
    (h : history = sinceStart n history ++ start) (hs : .started n ∉ new) :
    new ++ history = sinceStart n (new ++ history) ++ start := by
  rw [sinceStart_append hs, List.append_assoc, ← h]

theorem stay (h : Reckoned ⟨w, g, u⟩) (he : w.Extends w') (ho : w.Indifferent w')
    (reads : SameReads g g') (rooted : Rooted ⟨w', g', u'⟩) :
    Reckoned ⟨w', g', u'⟩ := by
  obtain ⟨new, hnew, hidle⟩ := ho.past
  -- Nothing that matters has happened to a node that is no effect.
  have quiet {n : NodeId} (hn : w.effect? n = none) {e : Event} (hm : e.Matters n) : e ∉ new := by
    intro hin
    have hs := hidle e hin n hm
    rw [hn] at hs
    cases hs
  have started {n : NodeId} (hn : w.effect? n = none) (hs : .started n ∈ w'.history) :
      .started n ∈ w.history := by
    rw [hnew] at hs
    exact (List.mem_append.1 hs).resolve_left (quiet hn rfl)
  refine ⟨fun n hn hs => ?_, fun n hn => ?_, fun n hn => ?_, reads.computings ▸ h.apart,
    fun n rt start hc hn => ?_, fun n hn m ht => ?_, fun n hn hs => ?_, fun n hc m hm hs => ?_,
    fun n hn => ?_, fun n m hn hm => ?_, rooted⟩
  · have hn := he.effect?_eq_none hn
    obtain ⟨m, hm, hr⟩ := h.had n hn (started hn hs)
    obtain ⟨m', hm', heq⟩ := ho.memos n m hm
    refine ⟨m', hm', fun hnone => ?_⟩
    simp only [hnew]
    exact (hr (heq ▸ hnone)).append (quiet hn rfl)
  · have hs := h.begun n ((ho.clean n).1 hn)
    simp only [hnew]
    exact List.mem_append_right _ hs
  · have hn := he.effect?_eq_none hn
    simp only [hnew, reads.computings]
    rw [← h.running n hn]
    exact ⟨fun ho => ho.of_append (quiet hn rfl), fun ho => ho.append (quiet hn rfl)⟩
  · have hn := he.effect?_eq_none hn
    simp only [hnew]
    exact start_append (h.start n rt start ((reads.mem (.computing n rt start) trivial).1 hc) hn)
      (quiet hn rfl)
  · have hc := (ho.clean n).1 hn
    have hn := effect?_eq_none (isSome_of_isClean hc)
    simp only [hnew] at ht ⊢
    have ht := mem_sinceStart_of_append ht (quiet hn rfl)
    obtain ⟨hm, hknown⟩ := h.known n hc m ht
    refine ⟨he.isSome_memo? hm, hknown.imp (reads.mem (.reading (some n) m) trivial).2 ?_⟩
    rintro ⟨r, hn', hm'⟩
    exact ⟨r, mem_sinceStart_append (quiet hn rfl) hn',
      mem_sinceStart_append (quiet (effect?_eq_none hm) rfl) hm'⟩
  · have hnone := he.effect?_eq_none (effect?_eq_none (isSome_of_isDirty hn))
    have hs := started hnone hs
    -- The memo was there before, as its function was started.
    obtain ⟨m, hm, -⟩ := h.had n hnone hs
    have hd := (isClean_or_isDirty hm).resolve_left fun hc =>
      not_isClean_of_isDirty hn ((ho.clean n).2 hc)
    simp only [hnew]
    exact (h.caused n hd hs).append (quiet hnone rfl)
  · have hm := he.effect?_eq_none hm
    simp only [hnew] at hs
    simp only [reads.computings] at hc
    exact (ho.clean m).2 (h.once n hc m hm (mem_sinceStart_of_append hs (quiet hm rfl)))
  · have hn := he.effect?_eq_none hn
    simp only [hnew]
    exact (h.justified n hn).append (quiet hn rfl)
  · have hn := he.effect?_eq_none hn
    have hm := he.effect?_eq_none hm
    simp only [hnew]
    exact (h.single n m hn hm).append (quiet hm rfl)

theorem calm (h : Reckoned ⟨w, g, u⟩) (he : w.Extends w') (ho : w.Indifferent w')
    (reads : SameReads g g') (calm : ∀ f ∈ g', ¬ f.Triggers) : Reckoned ⟨w', g', u'⟩ :=
  h.stay he ho reads (.of_calm calm)

/-- Somebody may be told of a change, and nothing happens to a node meanwhile. -/
theorem keep (h : Reckoned ⟨w, g, u⟩) (he : w.Extends w') (ho : w.Indifferent w')
    (reads : SameReads g g') {l : List Event} (past : w'.history = l ++ w.history)
    (idle : ∀ e ∈ l, e.actor? = none) (triggers : (∃ f ∈ g', f.Triggers) → ∃ f ∈ g, f.Triggers)
    (stems : ∀ root past, (∀ f ∈ g, f.Stems w root past) → ∀ f ∈ g', f.Stems w root past) :
    Reckoned ⟨w', g', u'⟩ :=
  h.stay he ho reads <| h.rooted.stay past idle triggers fun root past hs f hf =>
    (stems root past hs f hf).mono fun n => (ho.clean n).1

theorem pushReading (h : Reckoned ⟨w, g, u⟩) {n : NodeId} (hn : (w.memo? n).isSome)
    (rt : RuntimeId) (calm : ∀ f ∈ g, ¬ f.Triggers) :
    Reckoned ⟨w.trackedIn rt (.memo n) .value, .reading (w.currentReader rt) n :: g, u⟩ := by
  have he := World.Extends.trackedIn w rt (.memo n) .value
  have hsame := World.SameNodes.trackedIn w rt (.memo n) .value
  have hpast := w.history_trackedIn rt (.memo n) .value
  have none {k : NodeId} := he.effect?_eq_none (n := k)
  have clean {k : NodeId} (hk : (w.trackedIn rt (.memo n) .value).IsClean k) : w.IsClean k :=
    hk.of_sameNodes hsame.symm
  have quiet (k : NodeId) : .started k ∉ ((w.currentReader rt).map
      (Event.tracked · (.memo n) .value)).toList := by simp
  have returned (k : NodeId) : .finished k ∉ ((w.currentReader rt).map
      (Event.tracked · (.memo n) .value)).toList := by simp
  refine ⟨fun k hk hs => ?_, fun k hk => ?_, fun k hk => ?_, h.apart,
    fun k rt' start hc hk => ?_, fun k hk m ht => ?_, fun k hk hs => ?_, fun k hc m hm hs => ?_,
    fun k hk => ?_, fun k m hk hm => ?_, .of_calm ?_⟩
  · simp only [hpast] at hs ⊢
    obtain ⟨m, hm, hr⟩ := h.had k (none hk) ((List.mem_append.1 hs).resolve_left (quiet k))
    obtain ⟨m', hm', hb⟩ := hsame.memo? hm
    refine ⟨m', hm', fun hnone => (hr ?_).append (returned k)⟩
    rwa [Memo.of_bare hb] at hnone
  · simp only [hpast]
    exact List.mem_append_right _ (h.begun k (clean hk))
  · simp only [hpast, computings]
    rw [← h.running k (none hk)]
    exact ⟨fun ho => ho.of_append (quiet k), fun ho => ho.append (returned k)⟩
  · simp only [hpast]
    have hc := (List.mem_cons.1 hc).resolve_left (fun h => by cases h)
    exact start_append (h.start k rt' start hc (none hk)) (quiet k)
  · simp only [hpast] at ht ⊢
    by_cases hnew : .tracked k (.memo m) .value ∈
        ((w.currentReader rt).map (Event.tracked · (.memo n) .value)).toList
    · obtain ⟨x, hx, heq⟩ : ∃ x, w.currentReader rt = some x ∧
          Event.tracked x (.memo n) .value = .tracked k (.memo m) .value := by
        simpa using hnew
      obtain ⟨rfl, hmn, -⟩ := Event.tracked.inj heq
      obtain rfl := Handle.memo.inj hmn
      exact ⟨he.isSome_memo? hn, .inl (hx ▸ List.mem_cons_self)⟩
    · obtain ⟨hm, hknown⟩ := h.known k (clean hk) m (mem_sinceStart_of_append ht hnew)
      refine ⟨he.isSome_memo? hm, hknown.imp (List.mem_cons_of_mem _) ?_⟩
      rintro ⟨r, hk', hm'⟩
      exact ⟨r, mem_sinceStart_append (quiet k) hk', mem_sinceStart_append (quiet m) hm'⟩
  · simp only [hpast] at hs ⊢
    have hd : w.isDirty k := hsame.isDirty k ▸ hk
    exact (h.caused k hd ((List.mem_append.1 hs).resolve_left (quiet k))).append (quiet k)
  · simp only [hpast] at hs
    have hs := mem_sinceStart_of_append hs (quiet m)
    exact (h.once k hc m (none hm) hs).of_sameNodes hsame
  · simp only [hpast]
    exact (h.justified k (none hk)).append (quiet k)
  · simp only [hpast]
    exact (h.single k m (none hk) (none hm)).append (quiet m)
  · exact List.forall_mem_cons.2 ⟨id, calm⟩

/-- The function of a dirty memo is started. Whoever is clean and has read it is only about to read
it again. -/
theorem computing (h : Reckoned ⟨w, g, u⟩) {n : NodeId} (hn : w.isDirty n)
    (outside : n ∉ computings g) (rt : RuntimeId) (readers : ∀ k, w.IsClean k →
      .tracked k (.memo n) .value ∈ sinceStart k w.history → .reading (some k) n ∈ g)
    (calm : ∀ f ∈ g, ¬ f.Triggers) :
    Reckoned ⟨w.computing n rt, .computing n rt (w.computing n rt).history :: g, u⟩ := by
  have he := World.Extends.computing w n rt
  have hpast : (w.computing n rt).history = [Event.started n, .cleared n] ++ w.history :=
    w.history_computing n rt
  have hmemo := isSome_of_isDirty hn
  have none {k : NodeId} := he.effect?_eq_none (n := k)
  have clean : (w.computing n rt).IsClean n := w.isClean_computing hmemo rt
  have other {k : NodeId} (hk : (w.computing n rt).IsClean k) (hkn : n ≠ k) : w.IsClean k :=
    hk.of_computing hkn
  have quiet {k : NodeId} (hkn : n ≠ k) : .started k ∉ [Event.started n, .cleared n] := by
    simp [Ne.symm hkn]
  have returned (k : NodeId) : .finished k ∉ [Event.started n, .cleared n] := by simp
  have started {k : NodeId} (hkn : n ≠ k) (hs : .started k ∈ (w.computing n rt).history) :
      .started k ∈ w.history := by
    rw [hpast] at hs
    exact (List.mem_append.1 hs).resolve_left (quiet hkn)
  have memos (k : NodeId) (m : Memo) (hm : w.memo? k = some m) :
      ∃ m', (w.computing n rt).memo? k = some m' ∧ m'.result = m.result := by
    obtain ⟨m', hm', hb⟩ := (World.SameNodes.clearedOf w n).memo? hm
    rw [World.memo?_computing, World.memo?_modifyMemo]
    split
    · exact ⟨_, by rw [hm']; rfl, by rw [Memo.of_bare hb]⟩
    · exact ⟨m', hm', by rw [Memo.of_bare hb]⟩
  refine ⟨fun k hk hs => ?_, fun k hk => ?_, fun k hk => ?_, List.nodup_cons.2 ⟨outside, h.apart⟩,
    fun k rt' start hc hk => ?_, fun k hk m ht => ?_, fun k hk hs => ?_, fun k hc m hm hs => ?_,
    fun k hk => ?_, fun k m hk hm => ?_, .of_calm ?_⟩
  · by_cases hkn : n = k
    · subst hkn
      obtain ⟨m, hm⟩ := Option.isSome_iff_exists.1 (he.isSome_memo? hmemo)
      exact ⟨m, hm, fun _ => hpast ▸ open_started n _⟩
    · obtain ⟨m, hm, hr⟩ := h.had k (none hk) (started hkn hs)
      obtain ⟨m', hm', heq⟩ := memos k m hm
      refine ⟨m', hm', fun hnone => ?_⟩
      simp only [hpast]
      exact (hr (heq ▸ hnone)).append (returned k)
  · simp only [hpast]
    by_cases hkn : n = k
    · exact hkn ▸ List.mem_cons_self
    · exact List.mem_append_right _ (h.begun k (other hk hkn))
  · simp only [hpast, computings, List.mem_cons]
    rw [← h.running k (none hk)]
    by_cases hkn : n = k
    · subst hkn
      exact ⟨fun _ => .inl rfl, fun _ => open_started n _⟩
    · rw [or_iff_right (Ne.symm hkn)]
      exact ⟨fun ho => ho.of_append (quiet hkn), fun ho => ho.append (returned k)⟩
  · rcases List.mem_cons.1 hc with heq | hc
    · obtain ⟨rfl, -, rfl⟩ := Frame.computing.inj heq
      simp only [hpast, List.cons_append, sinceStart_started, List.nil_append]
    · have hkn : n ≠ k := fun hkn => outside (hkn ▸ mem_computings.2 ⟨rt', start, hc⟩)
      simp only [hpast]
      exact start_append (h.start k rt' start hc (none hk)) (quiet hkn)
  · simp only [hpast] at ht ⊢
    by_cases hkn : n = k
    · subst hkn
      rw [List.cons_append, sinceStart_started] at ht
      cases ht
    · have ht := mem_sinceStart_of_append ht (by simp)
      obtain ⟨hm, hknown⟩ := h.known k (other hk hkn) m ht
      refine ⟨he.isSome_memo? hm, ?_⟩
      by_cases hmn : n = m
      · exact .inl (List.mem_cons_of_mem _ (readers k (other hk hkn) (hmn ▸ ht) |> (hmn ▸ ·)))
      · refine hknown.imp (List.mem_cons_of_mem _) ?_
        rintro ⟨r, hk', hm'⟩
        exact ⟨r, mem_sinceStart_append (quiet hkn) hk', mem_sinceStart_append (quiet hmn) hm'⟩
  · have hkn : n ≠ k := fun hkn => not_isClean_of_isDirty hk (hkn ▸ clean)
    have hd : w.isDirty k := by
      have hk' := w.isDirty_computing n k rt
      rw [if_neg hkn] at hk'
      exact hk' ▸ hk
    have hc := h.caused k hd (started hkn hs)
    simp only [hpast]
    exact hc.append (quiet hkn)
  · by_cases hmn : n = m
    · exact hmn ▸ clean
    · simp only [hpast] at hs
      rcases List.mem_cons.1 hc with rfl | hc
      · rw [List.cons_append, sinceStart_started] at hs
        cases hs
      · have hs := mem_sinceStart_of_append hs (quiet hmn)
        exact (h.once k hc m (none hm) hs).computing hmn rt
  · simp only [hpast]
    by_cases hkn : n = k
    · subst hkn
      intro old ho hm
      rcases List.suffix_cons_iff.1 ho with heq | ho
      · obtain rfl := (List.cons.inj heq).2
        have hs := (List.mem_cons.1 hm).resolve_left (by simp)
        exact (h.caused n hn hs).append (by simp)
      · exact h.justified n (none hk) old (suffix_of_append (l := [.cleared n]) ho (by simp)) hm
    · exact (h.justified k (none hk)).append (quiet hkn)
  · simp only [hpast]
    have hs := h.single k m (none hk) (none hm)
    refine (hs.append (l := [.cleared n]) (by simp)).cons fun heq hopen hin => ?_
    obtain rfl := Event.started.inj heq
    -- The memo was computed already while the other one is, and so it is clean.
    have hopen : Open k w.history := Open.of_append (l := [.cleared n]) hopen (by simp)
    have hin : .started n ∈ sinceStart k w.history :=
      mem_sinceStart_of_append (l := [.cleared n]) hin (by simp)
    have hc := (h.running k (none hk)).1 hopen
    exact not_isClean_of_isDirty hn (h.once k hc n (none hm) hin)
  · exact List.forall_mem_cons.2 ⟨id, calm⟩

theorem computed {n : NodeId} {rt : RuntimeId} {start : List Event} {r : Result}
    (h : Reckoned ⟨w, .computing n rt start :: g, u⟩) (calm : ∀ f ∈ g, ¬ f.Triggers) :
    Reckoned ⟨w.computed n rt r, g, u⟩ := by
  have he := World.Extends.computed w n rt r
  have hpast : (w.computed n rt r).history = [Event.finished n] ++ w.history := w.history_computed n rt r
  have none {k : NodeId} := he.effect?_eq_none (n := k)
  have memo (k : NodeId) (m : Memo) (hm : (w.computed n rt r).memo? k = some m) :
      ∃ m', w.memo? k = some m' ∧ m.dirty = m'.dirty ∧ (n ≠ k → m.result = m'.result) := by
    rw [World.computed, World.memo?_modifyMemo] at hm
    split at hm
    · next hnk =>
      obtain ⟨m', hm', rfl⟩ := Option.map_eq_some_iff.1 hm
      exact ⟨m', hm', rfl, fun hne => absurd hnk hne⟩
    · exact ⟨m, hm, rfl, fun _ => rfl⟩
  have clean {k : NodeId} : (w.computed n rt r).IsClean k → w.IsClean k := World.IsClean.of_computed
  have dirty {k : NodeId} (hk : (w.computed n rt r).isDirty k) : w.isDirty k := by
    obtain ⟨m, hm⟩ := Option.isSome_iff_exists.1 (isSome_of_isDirty hk)
    obtain ⟨m', hm', hd, -⟩ := memo k m hm
    rw [World.isDirty, hm, Option.any_some] at hk
    rw [World.isDirty, hm', Option.any_some]
    exact hd.symm.trans hk
  obtain ⟨outside, apart⟩ := List.nodup_cons.1 h.apart
  have quiet (k : NodeId) : .started k ∉ [Event.finished n] := by simp
  have mem {k : NodeId} (hs : .started k ∈ (w.computed n rt r).history) :
      .started k ∈ w.history := by
    rw [hpast] at hs
    exact (List.mem_append.1 hs).resolve_left (quiet k)
  refine ⟨fun k hk hs => ?_, fun k hk => ?_, fun k hk => ?_, apart,
    fun k rt' start hc hk => ?_, fun k hk m ht => ?_, fun k hk hs => ?_, fun k hc m hm hs => ?_,
    fun k hk => ?_, fun k m hk hm => ?_, .of_calm calm⟩
  · obtain ⟨m, hm, hr⟩ := h.had k (none hk) (mem hs)
    obtain ⟨m', hm', -, -⟩ := he.memos k m hm
    refine ⟨m', hm', fun hnone => ?_⟩
    simp only [hpast]
    by_cases hnk : n = k
    · subst hnk
      rw [World.computed, World.memo?_modifyMemo, if_pos rfl] at hm'
      obtain ⟨_, -, rfl⟩ := Option.map_eq_some_iff.1 hm'
      cases hnone
    · obtain ⟨m'', hm'', -, hr'⟩ := memo k m' hm'
      obtain rfl := Option.some.inj (hm.symm.trans hm'')
      exact (hr ((hr' hnk).symm.trans hnone)).append (by simpa using Ne.symm hnk)
  · simp only [hpast]
    exact List.mem_append_right _ (h.begun k (clean hk))
  · simp only [hpast]
    have hrun : Open k w.history ↔ k = n ∨ k ∈ computings g :=
      (h.running k (none hk)).trans List.mem_cons
    by_cases hnk : n = k
    · subst hnk
      exact ⟨fun ho => absurd ho (not_open_finished n w.history), fun hc => absurd hc outside⟩
    · rw [or_iff_right (Ne.symm hnk)] at hrun
      rw [← hrun]
      exact ⟨fun ho => ho.of_append (quiet k), fun ho => ho.append (by simpa using Ne.symm hnk)⟩
  · simp only [hpast]
    exact start_append (h.start k rt' start (List.mem_cons_of_mem _ hc) (none hk)) (quiet k)
  · simp only [hpast] at ht ⊢
    obtain ⟨hm, hknown⟩ := h.known k (clean hk) m (mem_sinceStart_of_append ht (by simp))
    refine ⟨he.isSome_memo? hm, ?_⟩
    rcases hknown with hr | ⟨r', hk', hm'⟩
    · exact .inl ((List.mem_cons.1 hr).resolve_left (fun h => by cases h))
    · exact .inr ⟨r', mem_sinceStart_append (quiet k) hk', mem_sinceStart_append (quiet m) hm'⟩
  · have hc := h.caused k (dirty hk) (mem hs)
    simp only [hpast]
    exact hc.append (quiet k)
  · simp only [hpast] at hs
    have hs := mem_sinceStart_of_append hs (quiet m)
    obtain ⟨x, hx, hd⟩ := h.once k (List.mem_cons_of_mem _ hc) m (none hm) hs
    obtain ⟨x', hx', -, -⟩ := he.memos m x hx
    obtain ⟨x'', hx'', hd', -⟩ := memo m x' hx'
    obtain rfl := Option.some.inj (hx.symm.trans hx'')
    exact ⟨x', hx', hd'.trans hd⟩
  · simp only [hpast]
    exact (h.justified k (none hk)).append (quiet k)
  · simp only [hpast]
    exact (h.single k m (none hk) (none hm)).append (quiet m)

theorem gotBy {reader : Option NodeId} {n : NodeId} {r : Result}
    (h : Reckoned ⟨w, .reading reader n :: g, u⟩) (calm : ∀ f ∈ g, ¬ f.Triggers) :
    Reckoned ⟨w.gotBy reader n r, g, u⟩ := by
  have he := World.Extends.gotBy w reader n r
  have hnodes : (w.gotBy reader n r).nodes = w.nodes := by cases reader <;> rfl
  have hpast : (w.gotBy reader n r).history =
      (.got n r :: (reader.map (Event.saw · (.memo n) r)).toList) ++ w.history :=
    w.history_gotBy reader n r
  have none {k : NodeId} := he.effect?_eq_none (n := k)
  have clean {k : NodeId} (hk : (w.gotBy reader n r).IsClean k) : w.IsClean k := hk.of_nodes hnodes
  have memo? (k : NodeId) : (w.gotBy reader n r).memo? k = w.memo? k := by
    rw [World.memo?, World.memo?, hnodes]
  have quiet (k : NodeId) :
      .started k ∉ Event.got n r :: (reader.map (Event.saw · (.memo n) r)).toList := by simp
  have returned (k : NodeId) :
      .finished k ∉ Event.got n r :: (reader.map (Event.saw · (.memo n) r)).toList := by simp
  have mem {k : NodeId} (hs : .started k ∈ (w.gotBy reader n r).history) :
      .started k ∈ w.history := by
    rw [hpast] at hs
    exact (List.mem_append.1 hs).resolve_left (quiet k)
  refine ⟨fun k hk hs => ?_, fun k hk => ?_, fun k hk => ?_, h.apart,
    fun k rt start hc hk => ?_, fun k hk m ht => ?_, fun k hk hs => ?_, fun k hc m hm hs => ?_,
    fun k hk => ?_, fun k m hk hm => ?_, .of_calm calm⟩
  · obtain ⟨m, hm, hr⟩ := h.had k (none hk) (mem hs)
    refine ⟨m, (memo? k).trans hm, fun hnone => ?_⟩
    simp only [hpast]
    exact (hr hnone).append (returned k)
  · simp only [hpast]
    exact List.mem_append_right _ (h.begun k (clean hk))
  · simp only [hpast]
    refine .trans ?_ (h.running k (none hk))
    exact ⟨fun ho => ho.of_append (quiet k), fun ho => ho.append (returned k)⟩
  · simp only [hpast]
    exact start_append (h.start k rt start (List.mem_cons_of_mem _ hc) (none hk)) (quiet k)
  · simp only [hpast] at ht ⊢
    obtain ⟨hm, hknown⟩ := h.known k (clean hk) m (mem_sinceStart_of_append ht (by simp))
    refine ⟨he.isSome_memo? hm, ?_⟩
    rcases hknown with hr | ⟨r', hk', hm'⟩
    · rcases List.mem_cons.1 hr with heq | hr
      · obtain ⟨rfl, rfl⟩ := Frame.reading.inj heq
        refine .inr ⟨r, ?_, ?_⟩
        · rw [sinceStart_append (quiet k)]
          exact List.mem_append_left _ (by simp)
        · rw [sinceStart_append (quiet m)]
          exact List.mem_append_left _ (by simp)
      · exact .inl hr
    · exact .inr ⟨r', mem_sinceStart_append (quiet k) hk', mem_sinceStart_append (quiet m) hm'⟩
  · have hd : w.isDirty k := by rwa [World.isDirty, memo?] at hk
    have hc := h.caused k hd (mem hs)
    simp only [hpast]
    exact hc.append (quiet k)
  · simp only [hpast] at hs
    have hm := h.once k hc m (none hm) (mem_sinceStart_of_append hs (quiet m))
    rwa [World.IsClean, memo?]
  · simp only [hpast]
    exact (h.justified k (none hk)).append (quiet k)
  · simp only [hpast]
    exact (h.single k m (none hk) (none hm)).append (quiet m)

theorem madeDirty (h : Reckoned ⟨w, g, u⟩) {n : NodeId} {l : List Event}
    (idle : ∀ e ∈ l, e.actor? = none) {w₁ : World} (he : w.Extends w₁)
    (hnodes : w₁.nodes = w.nodes) (hpast : w₁.history = l ++ w.history)
    (outside : computings g = []) (cause : Caused n (l ++ w.history)) (reads : SameReads g g')
    (rooted : Rooted ⟨w₁.madeDirty n, g', u'⟩) : Reckoned ⟨w₁.madeDirty n, g', u'⟩ := by
  have hpast : (w₁.madeDirty n).history = l ++ w.history := hpast
  have he := he.trans (.madeDirty w₁ n)
  have none {k : NodeId} := he.effect?_eq_none (n := k)
  have quiet {e : Event} {k : NodeId} (ha : e.actor? = some k) : e ∉ l := fun hm =>
    absurd (ha.symm.trans (idle e hm)) (Option.some_ne_none _)
  have clean {k : NodeId} (hk : (w₁.madeDirty n).IsClean k) : w.IsClean k :=
    hk.of_madeDirty.1.of_nodes hnodes
  have memos (k : NodeId) (m : Memo) (hm : w.memo? k = some m) :
      ∃ m', (w₁.madeDirty n).memo? k = some m' ∧ m'.result = m.result := by
    have hm₁ : w₁.memo? k = some m := by rwa [World.memo?, hnodes]
    rw [World.madeDirty, World.memo?_modifyMemo, hm₁]
    split
    · exact ⟨_, rfl, rfl⟩
    · exact ⟨m, rfl, rfl⟩
  have mem {k : NodeId} (hs : .started k ∈ (w₁.madeDirty n).history) : .started k ∈ w.history := by
    rw [hpast] at hs
    exact (List.mem_append.1 hs).resolve_left (quiet rfl)
  have outside' (k : NodeId) : k ∉ computings g' :=
    (reads.computings.trans outside) ▸ List.not_mem_nil
  refine ⟨fun k hk hs => ?_, fun k hk => ?_, fun k hk => ?_, reads.computings ▸ h.apart,
    fun k rt start hc => absurd (mem_computings.2 ⟨rt, start, hc⟩) (outside' k),
    fun k hk m ht => ?_, fun k hk hs => ?_, fun k hc => absurd hc (outside' k), fun k hk => ?_,
    fun k m hk hm => ?_, rooted⟩
  · obtain ⟨m, hm, hr⟩ := h.had k (none hk) (mem hs)
    obtain ⟨m', hm', heq⟩ := memos k m hm
    refine ⟨m', hm', fun hnone => ?_⟩
    simp only [hpast]
    exact (hr (heq ▸ hnone)).append (quiet rfl)
  · simp only [hpast]
    exact List.mem_append_right _ (h.begun k (clean hk))
  · simp only [hpast, reads.computings]
    rw [← h.running k (none hk)]
    exact ⟨fun ho => ho.of_append (quiet rfl), fun ho => ho.append (quiet rfl)⟩
  · simp only [hpast] at ht ⊢
    obtain ⟨hm, hknown⟩ := h.known k (clean hk) m (mem_sinceStart_of_append ht (quiet rfl))
    refine ⟨he.isSome_memo? hm, hknown.imp (reads.mem (.reading (some k) m) trivial).2 ?_⟩
    rintro ⟨r, hk', hm'⟩
    exact ⟨r, mem_sinceStart_append (quiet rfl) hk', mem_sinceStart_append (quiet rfl) hm'⟩
  · by_cases hnk : n = k
    · simp only [hpast]
      exact hnk ▸ cause
    · have hd : w₁.isDirty k := w₁.isDirty_madeDirty_of_ne (Ne.symm hnk) ▸ hk
      have hd : w.isDirty k := by rwa [World.isDirty, World.memo?, hnodes] at hd
      have hc := h.caused k hd (mem hs)
      simp only [hpast]
      exact hc.append (quiet rfl)
  · simp only [hpast]
    exact (h.justified k (none hk)).append (quiet rfl)
  · simp only [hpast]
    exact (h.single k m (none hk) (none hm)).append (quiet rfl)

end Config.Reckoned

end Reactivity
