import Reactivity.Proofs.Updates.Notified

namespace Reactivity

theorem Layered.reader_mem_actives {disturbed : Prop} {g : List Frame} (h : Layered disturbed g)
    {x m : NodeId} (hm : .reading (some x) m ∈ g) : x ∈ actives g := by
  induction g with
  | nil => cases hm
  | cons f g ih =>
    rcases List.mem_cons.1 hm with rfl | hm
    · exact h.1.2.2 x rfl
    · have hx := ih h.2 hm
      cases f <;> first | exact hx | exact List.mem_cons_of_mem _ hx

theorem World.mem_readers_trackedBy {w : World} {n : NodeId} {h : Handle} (hv : h.Valid w)
    (key : Key) : (key, n) ∈ (w.trackedBy n h key).readers h := by
  rw [trackedBy]
  split
  · next hm => exact List.contains_iff_mem.1 hm
  · rw [readers_modifySources, readers_modifyReaders, if_pos ⟨rfl, hv⟩]
    exact List.mem_append_right _ (List.mem_singleton_self _)

theorem World.sinceStart_trackedBy (w : World) (n m : NodeId) (h : Handle) (key : Key) :
    sinceStart m (w.trackedBy n h key).history = .tracked n h key :: sinceStart m w.history := by
  rw [history_trackedBy]
  exact sinceStart_cons nofun

theorem World.sinceStart_note (w : World) (e : Event) (m : NodeId) (h : e ≠ .started m) :
    sinceStart m (w.note e).history = e :: sinceStart m w.history :=
  sinceStart_cons h

theorem World.IsClean.of_sameNodes {w w' : World} {n : NodeId} (h : w.IsClean n)
    (hs : w.SameNodes w') : w'.IsClean n := by
  obtain ⟨m, hm, hd⟩ := h
  obtain ⟨m', hm', hb⟩ := hs.memo? hm
  exact ⟨m', hm', by rw [Memo.of_bare hb]; exact hd⟩

theorem World.IsClean.modifyMemo {w : World} {n : NodeId} (h : w.IsClean n) (m : NodeId)
    {f : Memo → Memo} (hf : ∀ x, x.dirty = false → (f x).dirty = false) :
    (w.modifyMemo m f).IsClean n := by
  obtain ⟨x, hx, hd⟩ := h
  rw [IsClean, memo?_modifyMemo]
  split
  · exact ⟨f x, by rw [hx]; rfl, hf x hd⟩
  · exact ⟨x, hx, hd⟩

theorem World.memo?_computing (w : World) (n m : NodeId) (rt : RuntimeId) :
    (w.computing n rt).memo? m = ((w.clearedOf n).modifyMemo n fun x =>
      { x with dirty := false }).memo? m := rfl

theorem World.isClean_computing (w : World) {n : NodeId} (h : (w.memo? n).isSome) (rt : RuntimeId) :
    (w.computing n rt).IsClean n := by
  obtain ⟨x, hx⟩ := Option.isSome_iff_exists.1 ((Extends.clearedOf w n).isSome_memo? h)
  rw [IsClean, memo?_computing, memo?_modifyMemo, if_pos rfl, hx]
  exact ⟨_, rfl, rfl⟩

theorem World.IsClean.computing {w : World} {n m : NodeId} (h : w.IsClean m) (hnm : n ≠ m)
    (rt : RuntimeId) : (w.computing n rt).IsClean m := by
  have hc := h.of_sameNodes (.clearedOf w n)
  rwa [IsClean, memo?_computing, memo?_modifyMemo, if_neg hnm]

theorem Read.Kept.computing {w : World} {n m : NodeId} (hnm : n ≠ m) (rt : RuntimeId) :
    (Read.memo m).Kept w (w.computing n rt) := by
  refine (Read.Kept.of_sameNodes (.clearedOf w n) m).trans (.of_eq rfl fun r hr => ?_)
  rwa [Read.shown, World.memo?_computing, World.memo?_modifyMemo, if_neg hnm]

namespace Fresh

variable {w w' : World} {g : List Frame} {n m : NodeId} {h : Handle} {key : Key}

theorem trackedBy (hf : Fresh w n) (hv : h.Valid w) : Fresh (w.trackedBy m h key) n := by
  have he := World.Extends.trackedBy w m h key
  by_cases hmn : m = n
  · subst hmn
    have hsince : sinceStart m (w.trackedBy m h key).history =
        .tracked m h key :: sinceStart m w.history := w.sinceStart_trackedBy m m h key
    refine ⟨fun x k hm => ?_, fun read r hm => ?_⟩
    · rw [hsince] at hm
      rcases List.mem_cons.1 hm with heq | hm
      · obtain ⟨-, rfl, rfl⟩ := Event.tracked.inj heq
        exact World.mem_readers_trackedBy hv k
      · exact (World.Spares.trackedBy w m h key).registered x k (hf.registered x k hm)
    · rw [hsince] at hm
      have ha := hf.answers read r ((List.mem_cons.1 hm).resolve_left nofun)
      have hk : read.Kept w (w.trackedBy m h key) :=
        .of_same (.trackedBy w m h key) (.trackedBy w m h key) read
      refine ⟨ha.valid.mono he, fun k hkey => ?_, ?_⟩
      · rw [hsince]
        exact List.mem_cons_of_mem _ (ha.tracked k (hk.keys ▸ hkey))
      · obtain ⟨r₁, hr₁, hs₁⟩ := ha.shown
        obtain ⟨r₂, hr₂, hs₂⟩ := hk.shown r₁ hr₁
        exact ⟨r₂, hr₂, Result.same_trans hs₁ hs₂⟩
  · refine hf.mono he (.trackedBy w m h key) ⟨[.tracked m h key], World.history_trackedBy ..,
      fun e hm => ?_⟩ fun read _ _ _ => .of_same (.trackedBy w m h key) (.trackedBy w m h key) read
    obtain rfl := List.mem_singleton.1 hm
    exact hmn

theorem see (hf : Fresh w n) {read : Read} {r : Result}
    (ha : m = n → Answers w n read r) : Fresh (w.note (.saw m read r)) n := by
  have he := World.Extends.note w (.saw m read r)
  by_cases hmn : m = n
  · subst hmn
    have hsince : sinceStart m (w.note (.saw m read r)).history =
        .saw m read r :: sinceStart m w.history := sinceStart_cons nofun
    refine ⟨fun x k hm => ?_, fun read' r' hm => ?_⟩
    · rw [hsince] at hm
      exact hf.registered x k ((List.mem_cons.1 hm).resolve_left nofun)
    · have ha : Answers w m read' r' := by
        rw [hsince] at hm
        rcases List.mem_cons.1 hm with heq | hm
        · obtain ⟨-, rfl, rfl⟩ := Event.saw.inj heq
          exact ha rfl
        · exact hf.answers read' r' hm
      have hk := Read.Kept.note read' w (.saw m read r)
      refine ⟨ha.valid.mono he, fun k hkey => ?_, ?_⟩
      · rw [hsince]
        exact List.mem_cons_of_mem _ (ha.tracked k (hk.keys ▸ hkey))
      · obtain ⟨r₁, hr₁, hs₁⟩ := ha.shown
        obtain ⟨r₂, hr₂, hs₂⟩ := hk.shown r₁ hr₁
        exact ⟨r₂, hr₂, Result.same_trans hs₁ hs₂⟩
  · exact hf.mono he (.note w _) (.note hmn) fun read' _ _ _ => .note read' w _

/-- Who has read something that has changed is still to be told, by the frame of the change. -/
theorem changed (hf : Fresh w n) (he : w.Extends w') (hs : w.Spares n w') (silent : w.Silent n w')
    {rt : RuntimeId} {keys : List Key}
    (kept : ∀ read : Read, (read.handle = h → ∀ key ∈ keys, key ∉ read.keys w) → read.Kept w w') :
    Notified w' (.writing rt h keys :: g) n ∨ Fresh w' n := by
  by_cases hmiss : ∃ read r, .saw n read r ∈ sinceStart n w.history ∧ read.handle = h ∧
      ∃ key ∈ keys, key ∈ read.keys w
  · obtain ⟨read, r, hm, rfl, key, hk, hkey⟩ := hmiss
    have hr := hf.registered _ key ((hf.answers read r hm).tracked key hkey)
    exact .inl (.owed (List.mem_cons_self ..) ⟨key, hk, hs.registered _ key hr⟩)
  · refine .inr (hf.mono he hs silent fun read r hm _ => kept read fun hh key hk hkey => ?_)
    exact hmiss ⟨read, r, hm, hh, key, hk, hkey⟩

end Fresh

namespace Config.Settled

variable {w w' : World} {g g' : List Frame} {u u' : Bool}

theorem trackedBy (h : Config.Settled ⟨w, g, u⟩) {n : NodeId} {x : Handle} (hv : x.Valid w)
    (key : Key) : Config.Settled ⟨w.trackedBy n x key, g, u'⟩ := by
  have he := World.Extends.trackedBy w n x key
  refine h.advance
    (fun m hm => hm.mono_of_subset he (.trackedBy w n x key) (List.Subset.refl _))
    (fun m hm => .inr (hm.trackedBy hv)) (fun _ _ => id) (fun y m _ hr => .inr ?_)
    (fun _ _ _ => id) fun m rt start _ y r hs => ?_
  · obtain ⟨ht, hreader, hclean⟩ := hr
    refine ⟨?_, (World.Spares.trackedBy w n x key).registered _ _ hreader,
      hclean.of_sameNodes (.trackedBy w n x key)⟩
    rw [World.sinceStart_trackedBy]
    exact List.mem_cons_of_mem _ ht
  · rw [World.sinceStart_trackedBy] at hs
    exact (List.mem_cons.1 hs).resolve_left nofun

theorem trackedIn (h : Config.Settled ⟨w, g, u⟩) (rt : RuntimeId) {x : Handle} (hv : x.Valid w)
    (key : Key) : Config.Settled ⟨w.trackedIn rt x key, g, u⟩ := by
  rw [World.trackedIn]
  split
  · exact h
  · exact h.trackedBy hv key

theorem change (h : Config.Settled ⟨w, g, u⟩) (he : w.Extends w') {x : Handle} {keys : List Key}
    {rt : RuntimeId} (hs : ∀ n, w.Spares n w') (silent : ∀ n, w.Silent n w')
    (kept : ∀ read : Read, (read.handle = x → ∀ key ∈ keys, key ∉ read.keys w) → read.Kept w w')
    (owed : ∀ n, ∀ f ∈ g, f.Owes w n → Notified w' (.writing rt x keys :: g') n)
    (clean : ∀ m, w.IsClean m → w'.IsClean m ∨ x = .memo m ∧ .value ∈ keys)
    (reading : ∀ x m, .reading (some x) m ∈ g' → .reading (some x) m ∈ g)
    (computing : ∀ m rt start, .computing m rt start ∈ g' → .computing m rt start ∈ g) :
    Config.Settled ⟨w', .writing rt x keys :: g', u'⟩ := by
  refine h.advance (fun n hn => hn.mono he (hs n) (owed n))
    (fun n hn => hn.changed he (hs n) (silent n) kept)
    (fun y m hm => reading y m ((List.mem_cons.1 hm).resolve_left nofun)) (fun y m hm hr => ?_)
    (fun m rt start hm => computing m rt start ((List.mem_cons.1 hm).resolve_left nofun))
    fun m _ _ _ n r hm => ((silent n).mem_sinceStart (e := .saw n (.memo m) r) rfl).1 hm
  obtain ⟨ht, hreader, hclean⟩ := hr
  rcases clean m hclean with hclean | ⟨rfl, hk⟩
  · refine .inr ⟨?_, (hs y).registered _ _ hreader, hclean⟩
    exact ((silent y).mem_sinceStart (e := .tracked y (.memo m) .value) rfl).2 ht
  · exact .inl (.owed (List.mem_cons_self ..) ⟨.value, hk, (hs y).registered _ _ hreader⟩)

theorem restart (h : Config.Settled ⟨w, g, u⟩) {n : NodeId} (he : w.Extends w')
    (since : sinceStart n w'.history = []) (spares : ∀ x, n ≠ x → w.Spares x w')
    (silent : ∀ x, n ≠ x → w.Silent x w') (clean : ∀ m, w.IsClean m → w'.IsClean m)
    (kept : ∀ x read r, .saw x read r ∈ sinceStart x w.history → Answers w x read r →
      read.Kept w w')
    (owed : ∀ x, n ≠ x → ∀ f ∈ g, f.Owes w x → Notified w' g' x)
    (readers : ∀ x m, .reading (some x) m ∈ g → n ≠ x)
    (reading : ∀ x m, .reading (some x) m ∈ g' → .reading (some x) m ∈ g ∨ Registered w' x m)
    (computing : ∀ m rt start, .computing m rt start ∈ g' → .computing m rt start ∈ g ∨
      ∀ x r, .saw x (.memo m) r ∈ sinceStart x w.history → Notified w g x) :
    Config.Settled ⟨w', g', u'⟩ := by
  have told (x : NodeId) (hx : n ≠ x) (ht : Notified w g x) : Notified w' g' x :=
    ht.mono he (spares x hx) (owed x hx)
  refine ⟨fun x => ?_, fun x m hm => ?_, fun m rt start hm x r hs => ?_⟩
  · by_cases hx : n = x
    · exact .inr (.of_started (hx ▸ since))
    · exact (h.nodes x).imp (told x hx) fun hf => hf.mono he (spares x hx) (silent x hx) (kept x)
  · rcases reading x m hm with hm | hr
    · have hx := readers x m hm
      refine (h.reading x m hm).imp (told x hx) fun hr => ⟨?_, ?_, clean m hr.clean⟩
      · exact ((silent x hx).mem_sinceStart (e := .tracked x (.memo m) .value) rfl).2 hr.tracked
      · exact (spares x hx).registered _ _ hr.reader
    · exact .inr hr
  · by_cases hx : n = x
    · simp only [← hx, since] at hs
      cases hs
    · have hs := ((silent x hx).mem_sinceStart (e := .saw x (.memo m) r) rfl).1 hs
      refine told x hx ?_
      exact (computing m rt start hm).elim (fun hm => h.computing m rt start hm x r hs) (· x r hs)

end Config.Settled

theorem Registered.trackedIn {w : World} {rt : RuntimeId} {x n : NodeId}
    (hv : Handle.Valid w (.memo n)) (hx : w.currentReader rt = some x) (clean : w.IsClean n) :
    Registered (w.trackedIn rt (.memo n) .value) x n where
  tracked := World.mem_sinceStart_trackedIn hx
  reader := by
    simp only [World.trackedIn, hx]
    exact World.mem_readers_trackedBy hv .value
  clean := clean.of_sameNodes (.trackedIn ..)

theorem Registered.recalled {w : World} {x n m : NodeId} (h : Registered w x n) :
    Registered (w.note (.recalled m)) x n :=
  ⟨(w.sinceStart_note (.recalled m) x nofun).symm ▸ List.mem_cons_of_mem _ h.tracked, h.reader,
    h.clean⟩

theorem Read.eq_memo_of_value {w : World} {n : NodeId} (read : Read) (h : read.handle = .memo n)
    (hv : .value ∈ read.keys w) : read = .memo n := by
  cases read with
  | memo m => rw [Handle.memo.inj h]
  | size x =>
    obtain rfl : x = .memo n := h
    cases List.mem_singleton.1 hv
  | _ => cases h

theorem Read.Kept.of_memo_changed {w w' : World} {n : NodeId} (hc : w.SameContent w')
    (other : ∀ m, m ≠ n → (Read.memo m).Kept w w') {read : Read}
    (h : read.handle = .memo n → .value ∉ read.keys w) : read.Kept w w' := by
  cases read with
  | memo m =>
    refine other m fun hmn => h (hmn ▸ rfl) ?_
    exact List.mem_singleton_self _
  | _ => exact .of_sameContent hc nofun

namespace Config.Settled

variable {w : World} {g g' : List Frame} {u : Bool}

theorem madeDirty (h : Config.Settled ⟨w, g, u⟩) {n : NodeId} {rt : RuntimeId} {s : List Frame}
    (owed : ∀ x, ∀ f ∈ g, f.Owes w x →
      Notified (w.madeDirty n) (.writing rt (.memo n) [.value] :: s) x)
    (reading : ∀ x m, .reading (some x) m ∈ s → .reading (some x) m ∈ g)
    (computing : ∀ m rt start, .computing m rt start ∈ s → .computing m rt start ∈ g) :
    Config.Settled ⟨w.madeDirty n, .writing rt (.memo n) [.value] :: s, u⟩ := by
  refine h.change (.madeDirty w n) (fun x => .madeDirty w n) (fun _ => .of_eq rfl)
    (fun read apart => ?_) owed (fun m hm => ?_) reading computing
  · have hc : w.SameContent (w.madeDirty n) := .of_eq rfl rfl
    exact .of_memo_changed hc (fun m hm => .modifyMemo_of_ne (Ne.symm hm) _) fun hh =>
      apart hh _ (List.mem_singleton_self _)
  · by_cases hmn : n = m
    · exact .inr ⟨hmn ▸ rfl, List.mem_singleton_self _⟩
    · refine .inl ?_
      rwa [World.IsClean, World.madeDirty, World.memo?_modifyMemo, if_neg hmn]

variable {w' : World} {f f' : Frame}

theorem push (h : Config.Settled ⟨w, g, u⟩) (he : w.Extends w') (hu : w.Unnoticed w')
    (hr : ∀ x m, .reading x m ≠ f) (hc : ∀ m rt start, .computing m rt start ≠ f) :
    Config.Settled ⟨w', f :: g, u⟩ :=
  h.of_unnoticed he hu
    (fun n _ hf ho => .owed (List.mem_cons_of_mem _ hf) (ho.mono (hu.spares n)))
    (fun x m hm => (List.mem_cons.1 hm).resolve_left (hr x m))
    fun m rt start hm => (List.mem_cons.1 hm).resolve_left (hc m rt start)

theorem pop (h : Config.Settled ⟨w, f :: g, u⟩) (he : w.Extends w') (hu : w.Unnoticed w')
    (owes : ∀ n, f.Owes w n → Notified w' g n) : Config.Settled ⟨w', g, u⟩ := by
  refine h.of_unnoticed he hu (fun n x hx ho => ?_) (fun _ _ => List.mem_cons_of_mem _)
    fun _ _ _ => List.mem_cons_of_mem _
  rcases List.mem_cons.1 hx with rfl | hx
  · exact owes n ho
  · exact .owed hx (ho.mono (hu.spares n))

theorem exchange (h : Config.Settled ⟨w, f :: g, u⟩) (he : w.Extends w') (hu : w.Unnoticed w')
    (hr : ∀ x m, .reading x m ≠ f') (hc : ∀ m rt start, .computing m rt start ≠ f')
    (owes : ∀ n, f.Owes w n → Notified w' (f' :: g) n) : Config.Settled ⟨w', f' :: g, u⟩ := by
  refine h.of_unnoticed he hu (fun n x hx ho => ?_)
    (fun x m hm => List.mem_cons_of_mem _ ((List.mem_cons.1 hm).resolve_left (hr x m)))
    fun m rt start hm => List.mem_cons_of_mem _ ((List.mem_cons.1 hm).resolve_left (hc m rt start))
  rcases List.mem_cons.1 hx with rfl | hx
  · exact owes n ho
  · exact .owed (List.mem_cons_of_mem _ hx) (ho.mono (hu.spares n))

theorem tell {rt : RuntimeId} {n : NodeId} {ns : List NodeId}
    (h : Config.Settled ⟨w, .telling rt (n :: ns) :: g, u⟩) (he : w.Extends w')
    (hu : w.Unnoticed w') (told : Notified w' (.telling rt ns :: g) n) :
    Config.Settled ⟨w', .telling rt ns :: g, u⟩ := by
  refine h.exchange he hu (by simp) (by simp) fun m ho => ?_
  rcases List.mem_cons.1 ho with rfl | ho
  · exact told
  · exact .owed (List.mem_cons_self ..) ho

/-- The registrations on a part of a thing are used up, and those that were registered are to be
told. -/
theorem trigger {rt : RuntimeId} {x : Handle} {key : Key} {keys : List Key}
    (h : Config.Settled ⟨w, .writing rt x (key :: keys) :: g, false⟩) :
    Config.Settled
      ⟨w.taken x key, .telling rt ((w.readers x).on key) :: .writing rt x keys :: g, false⟩ := by
  have he := World.Extends.taken w x key
  have told (n : NodeId) (hn : (key, n) ∈ w.readers x) :
      Notified (w.taken x key) (.telling rt ((w.readers x).on key) :: .writing rt x keys :: g) n :=
    .owed (List.mem_cons_self ..) (Readers.mem_on.2 hn)
  have silent (n : NodeId) : w.Silent n (w.taken x key) :=
    ⟨[.triggered x key], w.history_taken x key, by simp [Event.Concerns]⟩
  have kept (read : Read) : read.Kept w (w.taken x key) := .of_same (.taken w x key) (.taken w x key) read
  have mem {f : Frame} (hf : f ∈ .telling rt ((w.readers x).on key) :: .writing rt x keys :: g)
      (hw : ∀ rt h keys, f ≠ .writing rt h keys) (ht : ∀ rt ns, f ≠ .telling rt ns) :
      f ∈ .writing rt x (key :: keys) :: g := by
    have hf := (List.mem_cons.1 hf).resolve_left (ht _ _)
    exact List.mem_cons_of_mem _ ((List.mem_cons.1 hf).resolve_left (hw _ _ _))
  refine h.advance (fun n hn => ?_) (fun n hn => ?_) (fun _ _ hm => mem hm (by simp) (by simp))
    (fun y m _ hr => ?_) (fun _ _ _ hm => mem hm (by simp) (by simp)) fun m _ _ _ n r hm => ?_
  · by_cases hreg : (key, n) ∈ w.readers x
    · exact told n hreg
    · have hsp := World.Spares.taken w hreg
      refine hn.mono he hsp fun f hf ho => ?_
      rcases List.mem_cons.1 hf with rfl | hf
      · obtain ⟨k, hk, hkn⟩ := ho
        have hk : k ∈ keys := (List.mem_cons.1 hk).resolve_left fun hkk => hreg (hkk ▸ hkn)
        exact .owed (List.mem_cons_of_mem _ (List.mem_cons_self ..)) ⟨k, hk, hsp.registered _ _ hkn⟩
      · exact .owed (List.mem_cons_of_mem _ (List.mem_cons_of_mem _ hf)) (ho.mono hsp)
  · by_cases hreg : (key, n) ∈ w.readers x
    · exact .inl (told n hreg)
    · exact .inr (hn.mono he (.taken w hreg) (silent n) fun read _ _ _ => kept read)
  · by_cases hreg : (key, y) ∈ w.readers x
    · exact .inl (told y hreg)
    · refine .inr ⟨?_, (World.Spares.taken w hreg).registered _ _ hr.reader,
        hr.clean.of_sameNodes (.taken w x key)⟩
      exact ((silent y).mem_sinceStart (e := .tracked y (.memo m) .value) rfl).2 hr.tracked
  · exact ((silent n).mem_sinceStart (e := .saw n (.memo m) r) rfl).1 hm

/-- A computation is about to read a memo that it has just been registered on. -/
theorem pushReading (h : Config.Settled ⟨w, g, u⟩) {reader : Option NodeId} {n : NodeId}
    (hx : ∀ x, reader = some x → Registered w x n) :
    Config.Settled ⟨w, .reading reader n :: g, u⟩ := by
  have told (m : NodeId) (hm : Notified w g m) : Notified w (.reading reader n :: g) m :=
    hm.mono_of_subset (.refl w) (.refl w m) (List.subset_cons_self _ _)
  refine ⟨fun m => (h.nodes m).imp_left (told m), fun x m hm => ?_, fun m rt start hm y r hs => ?_⟩
  · rcases List.mem_cons.1 hm with heq | hm
    · obtain ⟨rfl, rfl⟩ := Frame.reading.inj heq
      exact .inr (hx x rfl)
    · exact (h.reading x m hm).imp_left (told x)
  · exact told y (h.computing m rt start ((List.mem_cons.1 hm).resolve_left nofun) y r hs)

theorem endCompute {n : NodeId} {rt : RuntimeId} {start : List Event} {r : Result}
    (h : Config.Settled ⟨w, .computing n rt start :: g, u⟩) :
    Config.Settled ⟨w.computed n rt r, g, u⟩ := by
  have he := World.Extends.computed w n rt r
  have hsp (m : NodeId) := World.Spares.computed (n := m) w n rt r
  have silent (m : NodeId) : w.Silent m (w.computed n rt r) :=
    ⟨[.finished n], rfl, by simp [Event.Concerns]⟩
  have told (m : NodeId) (hm : Notified w (.computing n rt start :: g) m) :
      Notified (w.computed n rt r) g m := by
    refine hm.mono he (hsp m) fun f hf ho => ?_
    rcases List.mem_cons.1 hf with rfl | hf
    · exact ho.elim
    · exact .owed hf (ho.mono (hsp m))
  refine h.advance told (fun m hm => ?_) (fun _ _ => List.mem_cons_of_mem _) (fun x m _ hr => .inr ?_)
    (fun _ _ _ => List.mem_cons_of_mem _) fun m _ _ _ x r' hs => ?_
  · by_cases hsaw : ∃ r', .saw m (.memo n) r' ∈ sinceStart m w.history
    · obtain ⟨r', hsaw⟩ := hsaw
      exact .inl (told m (h.computing n rt start (List.mem_cons_self ..) m r' hsaw))
    · refine .inr (hm.mono he (hsp m) (silent m) fun read r' hr' _ => ?_)
      have hcont : w.SameContent (w.computed n rt r) := .of_eq rfl rfl
      refine .of_memo_changed (n := n) hcont (fun k hk => ?_) fun hh hv => ?_
      · have hnodes : w.SameNodes ((w.popContext rt).note (.finished n)) := .of_eq rfl
        exact (Read.Kept.of_sameNodes hnodes k).trans (.modifyMemo_of_ne (Ne.symm hk) _)
      · exact hsaw ⟨r', read.eq_memo_of_value hh hv ▸ hr'⟩
  · refine ⟨?_, (hsp x).registered _ _ hr.reader, ?_⟩
    · exact ((silent x).mem_sinceStart (e := .tracked x (.memo m) .value) rfl).2 hr.tracked
    · exact hr.clean.modifyMemo n fun _ => id
  · exact ((silent x).mem_sinceStart (e := .saw x (.memo m) r') rfl).1 hs

theorem endReading {n : NodeId} {reader : Option NodeId} {m : Memo} {r : Result}
    (h : Config.Settled ⟨w, .reading reader n :: g, u⟩)
    (ho : Config.Orderly ⟨w, .reading reader n :: g, u⟩) (memo : w.memo? n = some m)
    (result : m.result = some r) : Config.Settled ⟨w.gotBy reader n r, g, u⟩ := by
  have he := World.Extends.gotBy w reader n r
  cases reader with
  | none => exact h.pop he (.note _ fun _ => id) fun _ => False.elim
  | some x =>
    have he := World.Extends.note w (.saw x (.memo n) r)
    suffices h₁ : Config.Settled ⟨w.note (.saw x (.memo n) r), g, u⟩ from
      h₁.same (.note _ _) (.note _ fun _ => id)
    have told (y : NodeId) (hy : Notified w (.reading (some x) n :: g) y) :
        Notified (w.note (.saw x (.memo n) r)) g y := by
      refine hy.mono he (.note w _) fun f hf ho => ?_
      rcases List.mem_cons.1 hf with rfl | hf
      · exact ho.elim
      · exact .owed hf (ho.mono (.note w _))
    refine h.advance told (fun y hy => ?_) (fun _ _ => List.mem_cons_of_mem _)
      (fun y k _ hr => .inr ⟨?_, hr.reader, hr.clean⟩) (fun _ _ _ => List.mem_cons_of_mem _)
      fun k rt start hk y r' hs => ?_
    · by_cases hxy : x = y
      · subst hxy
        refine (h.reading x n (List.mem_cons_self ..)).imp (told x) fun hreg => hy.see fun _ => ?_
        obtain ⟨k, hk, hclean⟩ := hreg.clean
        obtain rfl : k = m := Option.some.inj (hk.symm.trans memo)
        refine ⟨Option.isSome_of_eq_some memo, fun key hkey => ?_, r, ?_, r.same_refl⟩
        · exact List.mem_singleton.1 hkey ▸ hreg.tracked
        · simp only [Read.shown, memo, Option.bind_some, hclean, Bool.false_eq_true, if_false, result]
      · exact .inr (hy.see fun hyx => absurd hyx hxy)
    · rw [w.sinceStart_note (.saw x (.memo n) r) y (by simp)]
      exact List.mem_cons_of_mem _ hr.tracked
    · rw [w.sinceStart_note (.saw x (.memo n) r) y (by simp)] at hs
      refine (List.mem_cons.1 hs).resolve_left fun heq => ho.layered.1.2.1 ?_
      obtain ⟨-, hkn, -⟩ := Event.saw.inj heq
      have hk := (List.mem_cons.1 hk).resolve_left (by simp)
      exact mem_actives.2 (.inr ⟨rt, start, (Read.memo.inj hkn) ▸ hk⟩)

theorem beginCompute {n : NodeId} {m : Memo} (h : Config.Settled ⟨w, g, false⟩)
    (hc : Config.Sane ⟨w, g, false⟩) (ho : Config.Orderly ⟨w, g, false⟩) (memo : w.memo? n = some m)
    (stale : m.dirty ∨ m.result = none)
    (hr : ((w.trackedIn m.runtime (.memo n) .value).computing n m.runtime).Regular) :
    Config.Settled ⟨(w.trackedIn m.runtime (.memo n) .value).computing n m.runtime,
      .computing n m.runtime
          ((w.trackedIn m.runtime (.memo n) .value).computing n m.runtime).history ::
        .reading (w.currentReader m.runtime) n :: g, false⟩ := by
  have hv : Handle.Valid w (.memo n) := Option.isSome_of_eq_some memo
  have hx := World.Extends.trackedIn w m.runtime (.memo n) .value
  have he := World.Extends.computing (w.trackedIn m.runtime (.memo n) .value) n m.runtime
  have hn : n ∉ actives g := ho.beginCompute_not_mem_actives hr (he.isSome_memo? (hx.isSome_memo? hv))
  have h₁ := h.trackedIn m.runtime hv .value
  have hreader := hc.reader_mem_actives memo
  have hne {x : NodeId} (hm : x ∈ actives g) : n ≠ x := fun hnx => hn (hnx ▸ hm)
  obtain ⟨m', hm', hbare⟩ :=
    (World.SameNodes.trackedIn w m.runtime (.memo n) .value).memo? memo
  have hbare := Memo.of_bare hbare
  generalize hw₁ : w.trackedIn m.runtime (.memo n) .value = w₁ at *
  have silent (x : NodeId) (hnx : n ≠ x) : w₁.Silent x (w₁.computing n m.runtime) :=
    ⟨[.started n, .cleared n], w₁.history_computing n m.runtime, by simp [Event.Concerns, hnx]⟩
  have hnone : (Read.memo n).shown w₁ = none := by
    rw [Read.shown, hm', hbare]
    rcases stale with hd | hres
    · simp [hd]
    · simp [hres]
  have hclean := w₁.isClean_computing (Option.isSome_of_eq_some hm') m.runtime
  refine h₁.restart (n := n) he (by simp) (fun x hnx => .computing w₁ hnx m.runtime) silent
    (fun k hk => ?_) (fun x read r hsaw ha => ?_) (fun x hnx f hf ho => ?_)
    (fun x k hk => hne (ho.layered.reader_mem_actives hk)) (fun x k hk => ?_)
    fun k rt start hk => ?_
  · by_cases hnk : n = k
    · exact hnk ▸ hclean
    · exact hk.computing hnk m.runtime
  · refine .of_memo_changed (n := n) (.computing w₁ n m.runtime)
      (fun k hk => .computing (Ne.symm hk) m.runtime) fun hh hv => ?_
    obtain ⟨r', hr', -⟩ := ha.shown
    rw [read.eq_memo_of_value hh hv, hnone] at hr'
    cases hr'
  · exact .owed (List.mem_cons_of_mem _ (List.mem_cons_of_mem _ hf))
      (ho.mono (.computing w₁ hnx m.runtime))
  · rcases List.mem_cons.1 ((List.mem_cons.1 hk).resolve_left (by simp)) with heq | hk
    · obtain ⟨hx', rfl⟩ := Frame.reading.inj heq
      have hnx := hne (hreader x hx'.symm)
      have ht : .tracked x (.memo k) .value ∈
          sinceStart x (w.trackedIn m.runtime (.memo k) .value).history :=
        World.mem_sinceStart_trackedIn hx'.symm
      have hmem : (.value, x) ∈ w₁.readers (.memo k) := by
        rw [← hw₁, World.trackedIn, ← hx']
        exact World.mem_readers_trackedBy hv .value
      rw [hw₁] at ht
      refine .inr ⟨?_, (World.Spares.computing w₁ hnx m.runtime).registered _ _ hmem, hclean⟩
      exact ((silent x hnx).mem_sinceStart (e := .tracked x (.memo k) .value) rfl).2 ht
    · exact .inl hk
  · rcases List.mem_cons.1 hk with heq | hk
    · obtain ⟨rfl, -, -⟩ := Frame.computing.inj heq
      refine .inr fun x r hsaw => (h₁.nodes x).resolve_right fun hf => ?_
      obtain ⟨r', hr', -⟩ := (hf.answers _ r hsaw).shown
      rw [hnone] at hr'
      cases hr'
    · exact .inl ((List.mem_cons.1 hk).resolve_left (by simp))

theorem clearRunning {n : NodeId} {e : Effect} (h : Config.Settled ⟨w, .pending n :: g, u⟩)
    (ho : Config.Orderly ⟨w, .pending n :: g, u⟩) (effect : w.effect? n = some e)
    (busy : e.running) : Config.Settled ⟨w.clearedOf n, g, u⟩ := by
  have he := World.Extends.clearedOf w n
  have hsome : (w.effect? n).isSome := Option.isSome_of_eq_some effect
  have hn : Notified (w.clearedOf n) g n := by
    have hrun : w.isRunning n := by simp [World.isRunning, effect, busy]
    obtain ⟨rt, hm⟩ := (ho.running n).1 hrun
    have hactive : n ∈ actives g :=
      mem_actives.2 (.inl ⟨rt, (List.mem_cons.1 hm).resolve_left (by simp)⟩)
    obtain ⟨⟨rt', batch, g', rfl⟩, ⟨g'', rfl⟩, ⟨-, -, hd⟩, -⟩ := ho.layered
    exact .excused (he.isSome_effect? hsome) fun hu =>
      hd (List.ne_nil_of_mem hactive) (hu.of_suffix he.history)
  have silent (m : NodeId) : w.Silent m (w.clearedOf n) :=
    ⟨[.cleared n], w.history_clearedOf n, by simp [Event.Concerns]⟩
  refine h.advance (fun m hm => ?_) (fun m hm => ?_) (fun _ _ => List.mem_cons_of_mem _)
    (fun x m _ hr => ?_) (fun _ _ _ => List.mem_cons_of_mem _) fun m _ _ _ x r hs => ?_
  · by_cases hnm : n = m
    · exact hnm ▸ hn
    · refine hm.mono he (.clearedOf w hnm) fun f hf ho => ?_
      rcases List.mem_cons.1 hf with rfl | hf
      · exact absurd ho.symm hnm
      · exact .owed hf (ho.mono (.clearedOf w hnm))
  · by_cases hnm : n = m
    · exact .inl (hnm ▸ hn)
    · exact .inr (hm.mono he (.clearedOf w hnm) (silent m) fun read _ _ _ =>
        .of_same (.clearedOf w n) (.clearedOf w n) read)
  · by_cases hnx : n = x
    · exact .inl (hnx ▸ hn)
    · refine .inr ⟨?_, (World.Spares.clearedOf w hnx).registered _ _ hr.reader,
        hr.clean.of_sameNodes (.clearedOf w n)⟩
      exact ((silent x).mem_sinceStart (e := .tracked x (.memo m) .value) rfl).2 hr.tracked
  · exact ((silent x).mem_sinceStart (e := .saw x (.memo m) r) rfl).1 hs

theorem beginRun {n : NodeId} {rt : RuntimeId} (h : Config.Settled ⟨w, f :: g, false⟩)
    (layered : ∃ disturbed, Layered disturbed (f :: g)) (frame : f = .pending n ∨ f = .created n)
    (idle : n ∉ actives g) : Config.Settled ⟨w.running n rt, .running n rt :: g, false⟩ := by
  have he := World.Extends.running w n rt
  obtain ⟨disturbed, layered⟩ := layered
  have hactive : actives (f :: g) = actives g := by rcases frame with rfl | rfl <;> rfl
  have hne {x : NodeId} (hm : x ∈ actives (f :: g)) : n ≠ x := fun hnx => idle (hnx ▸ hactive ▸ hm)
  have hnodes : w.SameNodes (w.clearedOf n) := .clearedOf w n
  refine h.restart (n := n) he (by simp) (fun x hnx => .running w hnx rt)
    (fun x hnx => ⟨[.started n, .cleared n], w.history_running n rt, ?_⟩)
    (fun m hm => ?_) (fun x read r _ _ => ?_) (fun x hnx f' hf ho => ?_)
    (fun x m hm => hne (layered.reader_mem_actives hm))
    (fun x m hm => .inl (List.mem_cons_of_mem _ ((List.mem_cons.1 hm).resolve_left (by simp))))
    fun m rt' start hm => .inl (List.mem_cons_of_mem _ ((List.mem_cons.1 hm).resolve_left (by simp)))
  · simp [Event.Concerns, hnx]
  · obtain ⟨k, hk, hd⟩ := hm.of_sameNodes hnodes
    exact ⟨k, (World.memo?_modifyEffect ..).trans hk, hd⟩
  · cases read with
    | memo m =>
      have hm : (Read.memo m).Kept (w.clearedOf n) (w.running n rt) := .of_eq rfl fun r hr => by
        rw [Read.shown] at hr ⊢
        rwa [← World.memo?_modifyEffect] at hr
      exact (Read.Kept.of_sameNodes hnodes m).trans hm
    | _ => exact .of_sameContent (.running w n rt) (by simp)
  · have hf : f' ∈ g := by
      refine (List.mem_cons.1 hf).resolve_left fun hff => ?_
      subst hff
      rcases frame with rfl | rfl
      · exact hnx ho.symm
      · exact ho
    exact .owed (List.mem_cons_of_mem _ hf) (ho.mono (.running w hnx rt))

theorem disposing (h : Config.Settled ⟨w, g, u⟩) {n : NodeId} (effect : (w.effect? n).isSome) :
    Config.Settled ⟨w.disposing n, g, u'⟩ := by
  have he := World.Extends.disposing w n
  have hn : Notified (w.disposing n) g n := .disposed (w.isDisposed_disposing effect)
  have silent (m : NodeId) : w.Silent m (w.disposing n) :=
    ⟨[.cleared n], w.history_disposing n, by simp [Event.Concerns]⟩
  have hclean (m : NodeId) (hm : w.IsClean m) : (w.disposing n).IsClean m := by
    have hm' : (w.modifyEffect n fun e => { e with disposed := true }).IsClean m := by
      rwa [World.IsClean, World.memo?_modifyEffect]
    exact hm'.of_sameNodes (.clearedOf _ n)
  have kept (read : Read) : read.Kept w (w.disposing n) := by
    cases read with
    | memo m =>
      have hm : (Read.memo m).Kept w (w.modifyEffect n fun e => { e with disposed := true }) :=
        .of_eq rfl fun r hr => by rwa [Read.shown, World.memo?_modifyEffect]
      exact hm.trans (.of_sameNodes (.clearedOf _ n) m)
    | _ => exact .of_sameContent (.disposing w n) (by simp)
  refine h.advance (fun m hm => ?_) (fun m hm => ?_) (fun _ _ => id) (fun x m _ hr => ?_)
    (fun _ _ _ => id) fun m _ _ _ x r hs => ?_
  · by_cases hnm : n = m
    · exact hnm ▸ hn
    · exact hm.mono_of_subset he (.disposing w hnm) (List.Subset.refl _)
  · by_cases hnm : n = m
    · exact .inl (hnm ▸ hn)
    · exact .inr (hm.mono he (.disposing w hnm) (silent m) fun read _ _ _ => kept read)
  · by_cases hnx : n = x
    · exact .inl (hnx ▸ hn)
    · refine .inr ⟨?_, (World.Spares.disposing w hnx).registered _ _ hr.reader, hclean m hr.clean⟩
      exact ((silent x).mem_sinceStart (e := .tracked x (.memo m) .value) rfl).2 hr.tracked
  · exact ((silent x).mem_sinceStart (e := .saw x (.memo m) r) rfl).1 hs

theorem emptied (h : Config.Settled ⟨w, g, u⟩) {rt : RuntimeId} (e : Event)
    (he : ∀ n, ¬ e.Concerns n) (hg : g ⊆ g')
    (queued : ∀ n ∈ w.queue rt,
      Notified ((w.modifyRuntime rt fun r => { r with queue := [] }).note e) g' n)
    (reading : ∀ x m, .reading (some x) m ∈ g' → .reading (some x) m ∈ g)
    (computing : ∀ m rt start, .computing m rt start ∈ g' → .computing m rt start ∈ g) :
    Config.Settled ⟨(w.modifyRuntime rt fun r => { r with queue := [] }).note e, g', u'⟩ := by
  have hx : w.Extends ((w.modifyRuntime rt fun r => { r with queue := [] }).note e) := by
    refine .trans ?_ (.note _ _)
    exact .modifyRuntime w rt fun _ => ⟨rfl, rfl⟩
  have hsp (n : NodeId) (hn : n ∉ w.queue rt) :
      w.Spares n ((w.modifyRuntime rt fun r => { r with queue := [] }).note e) :=
    (World.Spares.emptied w hn).trans (.note _ _)
  have silent (n : NodeId) : w.Silent n ((w.modifyRuntime rt fun r => { r with queue := [] }).note e) :=
    .trans (.of_eq rfl) (.note (he n))
  have kept (read : Read) : read.Kept w ((w.modifyRuntime rt fun r => { r with queue := [] }).note e) := by
    have hc : w.SameContent ((w.modifyRuntime rt fun r => { r with queue := [] }).note e) :=
      .of_eq rfl rfl
    have hn : w.SameNodes ((w.modifyRuntime rt fun r => { r with queue := [] }).note e) := .of_eq rfl
    exact .of_same hc hn read
  refine h.advance (fun n hn => ?_) (fun n hn => ?_) reading (fun x m _ hr => ?_) computing
    fun m _ _ _ n r hs => ?_
  · by_cases hq : n ∈ w.queue rt
    · exact queued n hq
    · exact hn.mono_of_subset hx (hsp n hq) hg
  · by_cases hq : n ∈ w.queue rt
    · exact .inl (queued n hq)
    · exact .inr (hn.mono hx (hsp n hq) (silent n) fun read _ _ _ => kept read)
  · by_cases hq : x ∈ w.queue rt
    · exact .inl (queued x hq)
    · refine .inr ⟨?_, (hsp x hq).registered _ _ hr.reader, hr.clean⟩
      exact ((silent x).mem_sinceStart (e := .tracked x (.memo m) .value) rfl).2 hr.tracked
  · exact ((silent n).mem_sinceStart (e := .saw n (.memo m) r) rfl).1 hs

end Config.Settled

theorem Step.settled {c c' : Config} (h : Step c c') (hc : c.Sane) (ho : c.Orderly)
    (hs : c.Settled) (hr : c'.world.Regular) : c'.Settled := by
  have he := h.extends
  cases h with
  | aside h => exact hs.same he h.unnoticed
  | track _ valid _ _ _ => exact hs.trackedBy valid _
  | @see w g rt n read r _ valid _ _ direct tracked shown =>
    refine hs.advance
      (fun m hm => hm.mono_of_subset he (.note w _) (List.Subset.refl _)) (fun m hm => .inr ?_)
      (fun _ _ => id) (fun x m _ hx => .inr ⟨?_, hx.reader, hx.clean⟩) (fun _ _ _ => id)
      fun m _ _ _ x r' hm => ?_
    · refine hm.see fun hnm => ?_
      subst hnm
      exact ⟨valid, tracked, r, shown, r.same_refl⟩
    · exact (sinceStart_cons (e := .saw n read r) (by simp)).symm ▸ List.mem_cons_of_mem _ hx.tracked
    · have hm := (sinceStart_cons (e := .saw n read r) (by simp)) ▸ hm
      refine (List.mem_cons.1 hm).resolve_left fun heq => direct m ?_
      exact (Event.saw.inj heq).2.1.symm
  | newObject _ _ _ =>
    exact hs.same he ((World.Unnoticed.note _ fun _ => id).trans (.pushObject _ _))
  | newArray _ _ _ =>
    exact hs.same he ((World.Unnoticed.note _ fun _ => id).trans (.pushArray _ _))
  | resolveObject _ resolved => exact hs.same he (.resolveObject resolved)
  | resolveArray _ resolved => exact hs.same he (.resolveArray resolved)
  | @write w w' g rt write _ _ _ edit =>
    have hspares (n : NodeId) : w.Spares n w' := edit.spares n
    refine hs.change he hspares (fun n => ⟨[.wrote write], edit.history, by simp [Event.Concerns]⟩)
      (fun read apart => edit.kept apart)
      (fun n f hf ho => .owed (List.mem_cons_of_mem _ hf) (ho.mono (hspares n)))
      (fun m hm => .inl ?_) (fun _ _ => id) fun _ _ _ => id
    rwa [World.IsClean, World.memo?, edit.nodes_eq]
  | beginChange _ _ _ _ => exact hs.push he (.note _ fun _ => id) (by simp) (by simp)
  | @endChange w g rt id before after _ _ =>
    obtain ⟨current, hcells, hsame⟩ := ho.contents id before (List.mem_cons_self ..)
    have hid : id < w.arrays.size := (hc.frames _ (List.mem_cons_self ..)).1
    have hu := (World.Unnoticed.note w (e := .changeEnded id) fun _ h => h).trans
      (.note _ (e := .wrote (.items id before after)) fun _ h => h)
    have hspares (n : NodeId) := (hu.spares n).trans
      (.modifyArray _ id (f := fun a => { a with cells := after.map .value }) fun _ => rfl)
    refine hs.change he hspares (fun n => hu.silent n) (fun read apart => ?_) (fun n f hf ho => ?_)
      (fun m hm => .inl hm) (fun _ _ => List.mem_cons_of_mem _) fun _ _ _ => List.mem_cons_of_mem _
    · have hk := (Read.Kept.note read w (.changeEnded id)).trans
        (.note read _ (.wrote (.items id before after)))
      refine hk.trans (.modifyCells hid hcells hsame fun hh key hkey => ?_)
      exact hk.keys ▸ apart hh key hkey
    · rcases List.mem_cons.1 hf with rfl | hf
      · exact ho.elim
      · exact .owed (List.mem_cons_of_mem _ hf) (ho.mono (hspares n))
  | abandonChange => exact hs.pop he (.note _ fun _ => id) fun _ => False.elim
  | trigger => exact hs.trigger
  | written =>
    refine hs.pop he (.refl _) fun n ho => ?_
    obtain ⟨key, hk, -⟩ := ho
    cases hk
  | told => exact hs.pop he (.refl _) fun n ho => absurd ho List.not_mem_nil
  | tellDisposed disposed => exact hs.tell he (.refl _) (.disposed disposed)
  | tellQueued _ queued => exact hs.tell he (.refl _) (.queued queued)
  | @tellEffect w g rt n ns _ _ =>
    exact hs.tell he (.queuedIn w rt n) (.queued (w.mem_queue_queuedIn hc.top.1 n))
  | @tellDirty w g rt n ns m memo dirty =>
    exact hs.tell he (.madeDirty memo dirty) (.dirty (w.isDirty_madeDirty memo))
  | @tellClean w g rt n ns m memo _ =>
    refine hs.madeDirty (s := .telling rt ns :: g) (fun x f hf ho => ?_)
      (fun x m hm => List.mem_cons_of_mem _ ((List.mem_cons.1 hm).resolve_left (by simp)))
      fun m rt start hm => List.mem_cons_of_mem _ ((List.mem_cons.1 hm).resolve_left (by simp))
    rcases List.mem_cons.1 hf with rfl | hf
    · rcases List.mem_cons.1 ho with rfl | ho
      · exact .dirty (w.isDirty_madeDirty memo)
      · exact .owed (List.mem_cons_of_mem _ (List.mem_cons_self ..)) ho
    · exact .owed (List.mem_cons_of_mem _ (List.mem_cons_of_mem _ hf)) (ho.mono (.madeDirty w n))
  | @schedule w g n e _ _ _ _ _ _ =>
    exact hs.same he ((World.Unnoticed.note w fun _ => id).trans (.queuedIn ..))
  | @markDirty w g n m _ memo dirty =>
    exact hs.same he ((World.Unnoticed.note w fun _ => id).trans (.madeDirty memo dirty))
  | @markClean w g n m code _ _ _ =>
    have h₁ : Config.Settled ⟨w.note (.dirtied n), g, false⟩ :=
      hs.same (.note w (.dirtied n)) (.note w fun _ => id)
    exact h₁.madeDirty (fun x f hf ho => .owed (List.mem_cons_of_mem _ hf) (ho.mono (.madeDirty _ n)))
      (fun _ _ => id) fun _ _ _ => id
  | newMemo _ _ _ => exact hs.same he (.pushNode _ _)
  | @reuse w g n m r code memo clean _ _ =>
    have hv : Handle.Valid w (.memo n) := Option.isSome_of_eq_some memo
    have h₁ : Config.Settled
        ⟨(w.trackedIn m.runtime (.memo n) .value).note (.recalled n), g, false⟩ :=
      (hs.trackedIn m.runtime hv .value).same (.note _ (.recalled n)) (.note _ fun _ => id)
    exact h₁.pushReading fun x hx => (Registered.trackedIn hv hx ⟨m, memo, clean⟩).recalled
  | beginCompute _ memo stale _ => exact hs.beginCompute hc ho memo stale hr
  | @endCompute w g n rt start since r _ _ _ => exact hs.endCompute
  | @abandonCompute w g n rt start =>
    exact hs.pop he (.modifyRuntime _ _ fun _ _ => id) fun _ => False.elim
  | @endReading w g n reader m r memo result => exact hs.endReading ho memo result
  | newEffect _ _ _ _ _ _ => exact hs.push he (.pushNode _ _) (by simp) (by simp)
  | newStore _ _ _ => exact hs.push he (.withStore _ _) (by simp) (by simp)
  | @addCleanup w g rt n e c _ _ _ _ _ _ =>
    refine hs.same he ((World.Unnoticed.note w (e := .cleanupAdded n c) fun _ => id).trans ?_)
    exact .modifyEffect _ _ fun _ => id
  | beginCleaning _ => exact hs.push he (.cleaning ..) (by simp) (by simp)
  | endCleaning =>
    exact hs.pop he ((World.Unnoticed.popContext ..).trans (.note _ fun _ => id)) fun _ => False.elim
  | abandonCleaning _ => exact hs.pop he (.popContext ..) fun _ => False.elim
  | skipPending disposed => exact hs.pop he (.refl _) fun n ho => ho ▸ .disposed disposed
  | clearRunning effect busy => exact hs.clearRunning ho effect busy
  | @beginRun w g n rt f e effect idle _ turn _ =>
    have frame : f = .pending n ∨ f = .created n := turn.imp And.left And.left
    have h₁ := ho.pop (.refl w) (.refl w) (by rcases frame with rfl | rfl <;> rfl) fun _ _ _ => rfl
    exact hs.beginRun ⟨_, ho.layered⟩ frame (hc.not_mem_actives h₁ effect idle)
  | endRun _ => exact hs.pop he (.ran ..) fun _ => False.elim
  | beginWatch _ _ => exact hs.push he (.refl _) (by simp) (by simp)
  | advance h => exact hs.exchange he (.note _ h.not_concerns) (by simp) (by simp) fun _ ho => ho.elim
  | keep _ _ _ =>
    exact hs.exchange he (.modifyEffect _ _ fun _ => id) (by simp) (by simp) fun _ ho => ho.elim
  | endReport => exact hs.pop he (.refl _) fun _ => False.elim
  | watched _ _ _ => exact hs.push he (.refl _) (by simp) (by simp)
  | prime _ _ =>
    exact hs.exchange he (.modifyEffect _ _ fun _ => id) (by simp) (by simp) fun _ ho => ho.elim
  | skipPass _ _ _ => exact hs.exchange he (.refl _) (by simp) (by simp) fun _ ho => ho.elim
  | @watchPass w g n rt batch e id _ _ _ _ =>
    have h₁ : Config.Settled ⟨w, .notified n :: .running n rt :: .round rt batch :: g, false⟩ :=
      hs.exchange (.refl _) (.refl _) (by simp) (by simp) fun _ ho => ho.elim
    exact h₁.push he (.passBegun _ _) (by simp) (by simp)
  | watchPostpone _ _ _ =>
    exact hs.exchange he (.passPostponed _ _) (by simp) (by simp) fun _ ho => ho.elim
  | @endWatch w g n rt _ =>
    have h₁ : Config.Settled ⟨w, .running n rt :: g, false⟩ :=
      hs.pop (.refl _) (.refl _) fun _ => False.elim
    exact h₁.pop he (.ran ..) fun _ => False.elim
  | abandonRun => exact hs.pop he (.stopped ..) fun _ => False.elim
  | @dispose w g n e _ effect _ _ =>
    have hs' : Config.Settled ⟨w.disposing n, g, false⟩ :=
      hs.disposing (Option.isSome_of_eq_some effect)
    exact hs'.push (.cleaning ..) (.cleaning ..) (by simp) (by simp)
  | @retire w g u n effect _ =>
    have hs' : Config.Settled ⟨w.disposing n, g, u⟩ := hs.disposing effect
    exact hs'.same (.note _ _) (.note _ fun _ => id)
  | mask _ _ _ => exact hs.push he (.modifyRuntime _ _ fun _ _ => id) (by simp) (by simp)
  | unmask => exact hs.pop he (.modifyRuntime _ _ fun _ _ => id) fun _ => False.elim
  | @beginPass w g id _ _ _ _ =>
    have hu := World.Unnoticed.note w (e := .passAsked id) fun _ h => h
    exact hs.push he (hu.trans (.passBegun _ _)) (by simp) (by simp)
  | endPass => exact hs.exchange he (.passEnded _ _ _) (by simp) (by simp) fun _ ho => ho.elim
  | @postpone w g id _ _ _ =>
    have hu := World.Unnoticed.note w (e := .passAsked id) fun _ h => h
    exact hs.same he (hu.trans (.passPostponed _ _))
  | settle _ => exact hs.pop he (.refl _) fun _ => False.elim
  | forgo _ => exact hs.pop he (.of_eq rfl rfl rfl rfl fun _ => .of_eq rfl) fun _ => False.elim
  | @takeUp w g id e _ _ _ =>
    have hu : w.Unnoticed (w.modifyStore id fun s => { s with pending := false }) :=
      .of_eq rfl rfl rfl rfl fun _ => .of_eq rfl
    exact hs.exchange he (hu.trans (.note _ fun _ h => h)) (by simp) (by simp) fun _ ho => ho.elim
  | passOver _ => exact hs.exchange he (.refl _) (by simp) (by simp) fun _ ho => ho.elim
  | @beginCall w g id rt sub subs _ _ _ =>
    have h₁ : Config.Settled ⟨w, .passing id rt subs :: g, false⟩ :=
      hs.exchange (.refl _) (.refl _) (by simp) (by simp) fun _ ho => ho.elim
    exact h₁.push he (.callBegun _ _ _) (by simp) (by simp)
  | @subscribe w g id callback _ _ _ _ =>
    have hu := (World.Unnoticed.withSubscription w id callback).trans
      (.pushContext _ (w.store id).runtime none)
    have h₁ : Config.Settled ⟨_, .masked (w.store id).runtime :: g, false⟩ :=
      hs.push he hu (by simp) (by simp)
    exact h₁.push (.refl _) (.refl _) (by simp) (by simp)
  | @greet w g id sub _ _ =>
    have h₁ : Config.Settled ⟨w, g, false⟩ := hs.pop (.refl _) (.refl _) fun _ => False.elim
    exact h₁.push he (.callBegun _ _ _) (by simp) (by simp)
  | endCall => exact hs.pop he (.callEnded _ _) fun _ => False.elim
  | newRuntime _ => exact hs.same he (.pushRuntime _ _)
  | @beginFlush w g rt _ _ _ _ =>
    refine hs.push he ((World.Unnoticed.note w (e := .flushBegan rt) fun _ => id).trans ?_) (by simp) (by simp)
    exact .modifyRuntime _ rt fun _ _ => id
  | @beginRound w g rt _ =>
    exact (hs.emptied (.roundBegan rt (w.queue rt)) (fun _ => id) (List.subset_cons_self _ _)
      (fun n hn => .owed (List.mem_cons_self ..) hn)
      (fun x m hm => (List.mem_cons.1 hm).resolve_left (by simp))
      fun m rt start hm => (List.mem_cons.1 hm).resolve_left (by simp))
  | @giveUp w s g rt _ frames =>
    have hrt : rt < w.runtimes.size := by
      rcases frames with rfl | ⟨rfl, -⟩
      · exact hc.frames (.flushing rt) (List.mem_cons_of_mem _ (List.mem_cons_self ..))
      · exact hc.frames _ (List.mem_cons_self ..)
    have h₁ : Config.Settled ⟨w, .flushing rt :: g, false⟩ := by
      rcases frames with rfl | ⟨rfl, -⟩
      · exact hs.pop (.refl _) (.refl _) fun n ho => absurd ho List.not_mem_nil
      · exact hs
    refine h₁.emptied (.gaveUp rt) (fun _ => id) (List.Subset.refl _) (fun n hn => .excused ?_ ?_)
      (fun _ _ => id) fun _ _ _ => id
    · exact he.isSome_effect? ((hc.world.runtimes rt hrt).1 n hn)
    · exact fun hu => hu.gaveUp rt (List.mem_cons_self ..)
  | skipTurn disposed =>
    refine hs.exchange he (.refl _) (by simp) (by simp) fun n ho => ?_
    rcases List.mem_cons.1 ho with rfl | ho
    · exact .disposed disposed
    · exact .owed (List.mem_cons_self ..) ho
  | @beginTurn w g rt n batch _ =>
    have hu := World.Unnoticed.note w (e := .turnBegan rt n) fun _ => id
    refine hs.of_unnoticed he hu (fun m f hf ho => ?_)
      (fun x k hm => ?_) fun k rt' start hm => ?_
    · rcases List.mem_cons.1 hf with rfl | hf
      · rcases List.mem_cons.1 ho with rfl | ho
        · exact .owed (List.mem_cons_self ..) rfl
        · exact .owed (List.mem_cons_of_mem _ (List.mem_cons_self ..)) ho
      · exact .owed (List.mem_cons_of_mem _ (List.mem_cons_of_mem _ hf)) (ho.mono (hu.spares m))
    · have hm := (List.mem_cons.1 hm).resolve_left (by simp)
      exact List.mem_cons_of_mem _ ((List.mem_cons.1 hm).resolve_left (by simp))
    · have hm := (List.mem_cons.1 hm).resolve_left (by simp)
      exact List.mem_cons_of_mem _ ((List.mem_cons.1 hm).resolve_left (by simp))
  | endRound => exact hs.pop he (.refl _) fun n ho => absurd ho List.not_mem_nil
  | endFlush _ =>
    refine hs.pop he (.trans ?_ (.note _ fun _ => id)) fun _ => False.elim
    exact .modifyRuntime _ _ fun _ _ => id
  | throw _ => exact hs.same he (.note _ fun _ => id)
  | exhaust => exact absurd (List.mem_cons_self ..) hr.exhausted
  | @drop w g f droppable =>
    obtain ⟨hd, ht⟩ := ho.interrupted rfl
    have hvalid := hc.frames f (List.mem_cons_self ..)
    refine hs.pop he (.refl _) fun n howes => ?_
    cases f with
    | writing => exact absurd trivial (ht _ (List.mem_cons_self ..))
    | telling => exact absurd trivial (ht _ (List.mem_cons_self ..))
    | pending m => exact .excused (howes ▸ hvalid) hd
    | round rt batch => exact .excused (hvalid.2 n howes) hd
    | _ => exact howes.elim
  | resume => exact hs.same he (.refl _)

end Reactivity
