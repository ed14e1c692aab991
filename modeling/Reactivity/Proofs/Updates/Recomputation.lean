import Reactivity.Proofs.Updates.Reckoning

namespace Reactivity

theorem Aside.idle {w w' : World} (h : Aside w w') :
    ∃ new, w'.history = new ++ w.history ∧ ∀ e ∈ new, e.actor? = none := by
  have single {w' : World} {e : Event} (hw : w'.history = e :: w.history) (he : e.actor? = none) :
      ∃ new, w'.history = new ++ w.history ∧ ∀ e ∈ new, e.actor? = none :=
    ⟨[e], hw, List.forall_mem_singleton.2 he⟩
  cases h with
  | log | clearLog | external | task | hold | release => exact ⟨[], rfl, List.forall_mem_nil _⟩
  | cancel sub _ => exact single (w.history_cancelled sub) rfl
  | _ => exact single rfl rfl

namespace Config.Reckoned

variable {w : World} {g : List Frame}

theorem opened {u : Bool} (hr : Reckoned ⟨w, g, u⟩) (hc : Sane ⟨w, g, u⟩) :
    ∀ n ∈ computings g, Open n w.history := by
  intro n hn
  obtain ⟨rt, start, hf⟩ := mem_computings.1 hn
  exact (hr.running n (effect?_eq_none (hc.frames _ hf).2)).2 hn

theorem trigger {rt : RuntimeId} {h : Handle} {key : Key} {keys : List Key}
    (hr : Reckoned ⟨w, .writing rt h (key :: keys) :: g, false⟩)
    (hc : Sane ⟨w, .writing rt h (key :: keys) :: g, false⟩) (hm : w.Mirrored)
    (hv : w.ReadByValue) (hn : Nested (.writing rt h (key :: keys) :: g)) :
    Reckoned ⟨w.taken h key, .telling rt ((w.readers h).on key) :: .writing rt h keys :: g,
      false⟩ := by
  have hpast : (w.taken h key).history = [Event.triggered h key] ++ w.history := w.history_taken h key
  have idle : ∀ e ∈ [Event.triggered h key], e.actor? = none := by simp [Event.actor?]
  have ho : w.Indifferent (w.taken h key) := .of_idle (World.SameNodes.taken w h key) hpast idle
  have reads : SameReads (.writing rt h (key :: keys) :: g)
      (.telling rt ((w.readers h).on key) :: .writing rt h keys :: g) :=
    (SameReads.exchange id id).trans (.push id)
  refine hr.stay (World.Extends.taken w h key) ho reads fun _ => ?_
  obtain ⟨since, root, past, hw, hsince, hroot, hf⟩ :=
    hr.rooted ⟨_, List.mem_cons_self, trivial⟩
  refine ⟨.triggered h key :: since, root, past, ?_, List.forall_mem_cons.2 ⟨rfl, hsince⟩, hroot,
    fun f hf' => ?_⟩
  · rw [hpast, hw]
    rfl
  have hstem : Frame.Stems w root past (.writing rt h (key :: keys)) := hf _ List.mem_cons_self
  rcases List.mem_cons.1 hf' with rfl | hf'
  · intro n hn' hafter
    have hclean : w.IsClean n := (ho.clean n).1 hafter
    have hkey : (key, n) ∈ w.readers h := Readers.mem_on.1 hn'
    -- What the node has read it had read before the change already.
    have before {k : NodeId} {e : Event} {x : NodeId} (hx : e.actor? = some x)
        (hs : e ∈ sinceStart k w.history) : e ∈ sinceStart k past := by
      rw [hw] at hs
      have hs := mem_sinceStart_of_append hs fun hm =>
        absurd (hx.symm.trans (hsince e hm)) (Option.some_ne_none _)
      refine mem_sinceStart_of_append (l := [root]) hs fun hm => ?_
      rw [← List.mem_singleton.1 hm] at hroot
      exact absurd (hx.symm.trans hroot) (Option.some_ne_none _)
    have hread := hm.run h key n hkey
    rcases hstem key List.mem_cons_self with ⟨write, hwrite, rfl, hchanged⟩ | ⟨m, rfl, haffects⟩
    · exact .wrote hwrite hchanged (before rfl hread)
    · obtain rfl : key = .value := hv m _ hkey
      rcases (hr.known n hclean m hread).2 with hreading | ⟨r, hn'', hm'⟩
      · -- The function of the node would be running, and so there would be no change.
        have hactive := hn.reader_mem_actives hreading
        rcases mem_actives.1 hactive with ⟨rt', hrun⟩ | ⟨rt', start, hrun⟩
        · exact absurd rfl (hclean.ne_of_effect (hc.frames _ hrun).2)
        · have houtside : computings (.writing rt (.memo m) (.value :: keys) :: g) = [] := hn.1
          exact absurd (mem_computings.2 ⟨rt', start, hrun⟩) (houtside ▸ List.not_mem_nil)
      · exact .through (before rfl hn'') (before rfl hm') haffects
  · rcases List.mem_cons.1 hf' with rfl | hf'
    · exact fun key' hk => hstem key' (List.mem_cons_of_mem _ hk)
    · exact (hf f (List.mem_cons_of_mem _ hf')).mono fun n => (ho.clean n).1

theorem tell {w' : World} {u' : Bool} {rt : RuntimeId} {n : NodeId} {ns : List NodeId}
    (hr : Reckoned ⟨w, .telling rt (n :: ns) :: g, false⟩) (he : w.Extends w')
    (ho : w.Indifferent w') {l : List Event} (past : w'.history = l ++ w.history)
    (idle : ∀ e ∈ l, e.actor? = none) : Reckoned ⟨w', .telling rt ns :: g, u'⟩ := by
  refine hr.keep he ho (.exchange id id) past idle (fun _ => ⟨_, List.mem_cons_self, trivial⟩)
    fun root past hs f hf => ?_
  rcases List.mem_cons.1 hf with rfl | hf
  · exact fun k hk => hs _ List.mem_cons_self k (List.mem_cons_of_mem _ hk)
  · exact hs f (List.mem_cons_of_mem _ hf)

/-- While no memo is being computed, the function of a clean one has returned. -/
theorem returned {n : NodeId} (hr : Reckoned ⟨w, g, false⟩) (hclean : w.IsClean n)
    (outside : computings g = []) : .started n ∈ w.history ∧ ¬ Open n w.history := by
  refine ⟨hr.begun n hclean, fun ho => ?_⟩
  have hrun := (hr.running n (effect?_eq_none (isSome_of_isClean hclean))).1 ho
  exact absurd hrun (outside ▸ List.not_mem_nil)

/-- A memo is told of the change that it is affected by, and its readers are to be told. -/
theorem tellClean {rt : RuntimeId} {n : NodeId} {ns : List NodeId}
    (hr : Reckoned ⟨w, .telling rt (n :: ns) :: g, false⟩)
    (hn : Nested (.telling rt (n :: ns) :: g)) (hclean : w.IsClean n) :
    Reckoned ⟨w.madeDirty n, .writing rt (.memo n) [.value] :: .telling rt ns :: g, false⟩ := by
  have outside : computings (.telling rt (n :: ns) :: g) = [] := hn.1
  obtain ⟨hstarted, hopen⟩ := hr.returned hclean outside
  obtain ⟨since, root, past, hw, hsince, hroot, hf⟩ := hr.rooted ⟨_, List.mem_cons_self, trivial⟩
  have quiet {e : Event} (he : e.actor? = some n) : e ∉ since ∧ e ≠ root :=
    ⟨fun hm => absurd (he.symm.trans (hsince e hm)) (Option.some_ne_none _),
      fun hm => absurd ((congrArg Event.actor? hm).symm.trans he) (by simp [hroot])⟩
  have haffects : Affects root past n := hf _ List.mem_cons_self n List.mem_cons_self hclean
  have hcaused : Caused n w.history := by
    refine ⟨since, root, past, hw, (quiet rfl).1, ?_, fun ho => hopen ?_, haffects⟩
    · rw [hw] at hstarted
      have hstarted := (List.mem_append.1 hstarted).resolve_left (quiet rfl).1
      exact (List.mem_cons.1 hstarted).resolve_left (quiet rfl).2
    · rw [hw]
      exact (ho.cons (quiet rfl).2.symm).append (quiet rfl).1
  refine hr.madeDirty (l := []) (List.forall_mem_nil _) (.refl w) rfl rfl outside hcaused
    ((SameReads.exchange id id).trans (.push id)) fun _ => ?_
  refine ⟨since, root, past, hw, hsince, hroot, fun f hf' => ?_⟩
  rcases List.mem_cons.1 hf' with rfl | hf'
  · exact fun _ _ => .inr ⟨n, rfl, haffects⟩
  have clean (k : NodeId) (hk : (w.madeDirty n).IsClean k) : w.IsClean k := hk.of_madeDirty.1
  rcases List.mem_cons.1 hf' with rfl | hf'
  · exact fun k hk hc => hf _ List.mem_cons_self k (List.mem_cons_of_mem _ hk) (clean k hc)
  · exact (hf f (List.mem_cons_of_mem _ hf')).mono clean

theorem markClean {rt : RuntimeId} {n : NodeId} (hr : Reckoned ⟨w, g, false⟩)
    (outside : computings g = []) (hclean : w.IsClean n)
    (calm : ∀ f ∈ g, ¬ f.Triggers) :
    Reckoned ⟨(w.note (.dirtied n)).madeDirty n, .writing rt (.memo n) [.value] :: g, false⟩ := by
  obtain ⟨hstarted, hopen⟩ := hr.returned hclean outside
  have hcaused : Caused n ([Event.dirtied n] ++ w.history) :=
    ⟨[], .dirtied n, w.history, rfl, List.not_mem_nil, hstarted, hopen, .dirtied rfl⟩
  refine hr.madeDirty (l := [.dirtied n]) (List.forall_mem_singleton.2 rfl) (.note w _) rfl rfl
    outside hcaused (.push id) (.of_root rfl rfl ?_ calm)
  exact fun _ _ => .inr ⟨n, rfl, .dirtied rfl⟩

/-- A memo is read, and its function is started; so it was dirty, and nobody was registered on
it. -/
theorem beginCompute {n : NodeId} {m : Memo} (hr : Reckoned ⟨w, g, false⟩)
    (ha : Config.Attached ⟨w, g, false⟩) (hd : w.DirtyUnread) (code : AtCode g)
    (calm : ∀ f ∈ g, ¬ f.Triggers) (memo : w.memo? n = some m) (stale : m.dirty ∨ m.result = none)
    (acyclic : ∀ old, .started n :: old <:+
      ((w.trackedIn m.runtime (.memo n) .value).computing n m.runtime).history → ¬ Open n old) :
    Reckoned ⟨(w.trackedIn m.runtime (.memo n) .value).computing n m.runtime,
      .computing n m.runtime
          ((w.trackedIn m.runtime (.memo n) .value).computing n m.runtime).history ::
        .reading (w.currentReader m.runtime) n :: g, false⟩ := by
  have hsame := World.SameNodes.trackedIn w m.runtime (.memo n) .value
  have hpast := w.history_trackedIn m.runtime (.memo n) .value
  have hmemo : (w.memo? n).isSome := Option.isSome_of_eq_some memo
  have hclosed : ¬ Open n w.history := by
    refine fun ho => acyclic _ ⟨[], (World.history_computing _ n m.runtime).symm⟩ ?_
    rw [hpast]
    exact (ho.append (by simp)).cons nofun
  have hdirty : w.isDirty n := by
    rcases isClean_or_isDirty memo with hclean | hdirty
    · -- It would be being computed already.
      obtain ⟨m', hm', hopen⟩ := hr.had n (effect?_eq_none hmemo) (hr.begun n hclean)
      obtain rfl : m = m' := Option.some.inj (memo.symm.trans hm')
      obtain ⟨_, hx, hclean⟩ := hclean
      obtain rfl : m = _ := Option.some.inj (memo.symm.trans hx)
      exact absurd (hopen (stale.resolve_left (by simp [hclean]))) hclosed
    · exact hdirty
  have hdirty' := (hsame.isDirty n).trans hdirty
  have houtside : n ∉ computings (.reading (w.currentReader m.runtime) n :: g) := fun hin =>
    hclosed ((hr.running n (effect?_eq_none hmemo)).2 hin)
  refine (hr.pushReading hmemo m.runtime calm).computing hdirty' houtside m.runtime
    (fun k hk ht => ?_) ?_
  · rw [hpast] at ht
    by_cases hnew : .tracked k (.memo n) .value ∈
        ((w.currentReader m.runtime).map (Event.tracked · (.memo n) .value)).toList
    · have hreader : w.currentReader m.runtime = some k := by simpa using hnew
      exact hreader ▸ List.mem_cons_self
    · have hk : w.IsClean k := hk.of_sameNodes hsame.symm
      have ht := mem_sinceStart_of_append ht hnew
      rcases ha k hk _ _ ht with hreg | ⟨-, hat⟩
      · rw [hd n hdirty] at hreg
        cases hreg
      · exact absurd hat (code.not_aboutToTell k)
  · exact List.forall_mem_cons.2 ⟨id, calm⟩

end Config.Reckoned

/-- A step starts the function of a memo anew only when there is a cause for it. -/
theorem Step.reckoned {w w' : World} {g g' : List Frame} {u' : Bool}
    (h : Step ⟨w, g, false⟩ ⟨w', g', u'⟩) (hc : Config.Sane ⟨w, g, false⟩) (hs : Stacked w g)
    (hn : Nested g) (hm : w.Mirrored) (ha : Config.Attached ⟨w, g, false⟩)
    (hd : Config.Unread ⟨w, g, false⟩) (hr : Config.Reckoned ⟨w, g, false⟩) (ok : w'.Steady) :
    Config.Reckoned ⟨w', g', u'⟩ := by
  have opened := hr.opened hc
  have hx := h.extends
  have code (hg : AtCode g) := hs.not_triggers_of_atCode hg
  have push {g : List Frame} {f : Frame} (hf : ¬ f.Triggers) (hg : ∀ f ∈ g, ¬ f.Triggers) :
      ∀ f' ∈ f :: g, ¬ f'.Triggers := List.forall_mem_cons.2 ⟨hf, hg⟩
  have below {g : List Frame} {f : Frame} (hg : Stacked w (f :: g)) (hf : ¬ f.Triggers) :
      ∀ f' ∈ g, ¬ f'.Triggers := fun f' hf' => hg.not_triggers hf f' (List.mem_cons_of_mem _ hf')
  have refl := World.Indifferent.refl w
  have same {w' : World} (hn : w'.nodes = w.nodes) {e : Event} (he : e.actor? = none)
      (hh : w'.history = e :: w.history) : w.Indifferent w' :=
    .of_nodes (l := [e]) hn hh (List.forall_mem_singleton.2 he)
  cases h with
  | aside h =>
    obtain ⟨new, hnew, hidle⟩ := h.idle
    exact hr.keep hx (.of_nodes h.nodes_eq hnew hidle) (.refl _) hnew hidle id fun _ _ => id
  | @track w g rt n h key hg _ _ container _ =>
    refine hr.calm hx (.of_sameNodes (.trackedBy w n h key) (l := [_])
      (w.history_trackedBy n h key) ?_) (.refl _) (code hg)
    refine List.forall_mem_singleton.2 fun k hk => ?_
    cases h with
    | memo m => exact absurd rfl (container m)
    | _ => exact hk.elim
  | see hg _ _ _ _ _ _ =>
    exact hr.calm hx (refl.note fun _ => False.elim) (.refl _) (code hg)
  | newObject hg _ _ => exact hr.calm hx (same rfl rfl rfl) (.refl _) (code hg)
  | newArray hg _ _ => exact hr.calm hx (same rfl rfl rfl) (.refl _) (code hg)
  | resolveObject hg _ => exact hr.calm hx (.of_eq rfl rfl) (.refl _) (code hg)
  | resolveArray hg _ => exact hr.calm hx (.of_eq rfl rfl) (.refl _) (code hg)
  | write hg _ _ edit =>
    exact hr.stay hx (same edit.nodes_eq rfl edit.history) (.push id) (.of_root edit.history rfl
      (fun key hk => .inl ⟨_, rfl, rfl, hk⟩) (code hg))
  | beginChange hg _ _ _ =>
    exact hr.calm hx (same rfl rfl rfl) (.push id) (push id (code hg))
  | @endChange w g rt id before after _ _ =>
    have ho : w.Indifferent (((w.note (.changeEnded id)).note
        (.wrote (.items id before after))).modifyArray id fun a =>
          { a with cells := after.map .value }) :=
      .of_nodes (l := [.wrote (.items id before after), .changeEnded id]) rfl rfl
        (by simp [Event.actor?])
    exact hr.stay hx ho (.exchange (fun h => h) fun h => h) (.of_root rfl rfl
      (fun key hk => .inl ⟨_, rfl, rfl, hk⟩) (below hs fun h => h))
  | trigger => exact hr.trigger hc hm hd.value hn
  | written =>
    exact hr.keep hx refl (.pop id) (List.nil_append _).symm (List.forall_mem_nil _)
      (Exists.imp fun _ h => ⟨List.mem_cons_of_mem _ h.1, h.2⟩)
      fun _ _ hs f hf => hs f (List.mem_cons_of_mem _ hf)
  | told =>
    exact hr.keep hx refl (.pop id) (List.nil_append _).symm (List.forall_mem_nil _)
      (Exists.imp fun _ h => ⟨List.mem_cons_of_mem _ h.1, h.2⟩)
      fun _ _ hs f hf => hs f (List.mem_cons_of_mem _ hf)
  | tellDisposed _ => exact hr.tell (.refl w) refl (List.nil_append _).symm (List.forall_mem_nil _)
  | tellQueued _ _ => exact hr.tell (.refl w) refl (List.nil_append _).symm (List.forall_mem_nil _)
  | @tellEffect w g rt n ns _ _ =>
    rcases w.history_queuedIn rt n with hh | hh
    · exact hr.tell hx (.queuedIn w rt n) (l := [_]) hh (by simp [Event.actor?])
    · exact hr.tell hx (.queuedIn w rt n) (l := [_, _]) hh (by simp [Event.actor?])
  | @tellDirty w g rt n ns m memo dirty =>
    have hdirty : w.isDirty n := by rw [World.isDirty, memo]; exact dirty
    rw [World.madeDirty_of_isDirty hdirty]
    exact hr.tell (.refl w) refl (List.nil_append _).symm (List.forall_mem_nil _)
  | tellClean memo clean => exact hr.tellClean hn ⟨_, memo, clean⟩
  | @schedule w g n e hg _ _ _ _ _ =>
    refine hr.calm hx ?_ (.refl _) (code hg)
    have ho : w.Indifferent (w.note (.scheduled n)) := same rfl rfl rfl
    exact ho.trans (.queuedIn _ e.runtime n) fun _ => id
  | @markDirty w g n m hg memo dirty =>
    have hdirty : (w.note (.dirtied n)).isDirty n := by
      change (w.memo? n).any (·.dirty)
      rw [memo]
      exact dirty
    rw [World.madeDirty_of_isDirty hdirty]
    exact hr.calm (.note w _) (same rfl rfl rfl) (.refl _) (code hg)
  | @markClean w g n m hg free memo clean =>
    have outside := ok.outside hc hx opened (e := .dirtied n) trivial (List.suffix_refl _)
      fun _ => id
    exact hr.markClean outside ⟨_, memo, clean⟩ (code hg)
  | newMemo hg _ _ =>
    refine hr.calm hx (.pushNode w fun m hm => ?_) (.refl _) (code hg)
    obtain rfl := Node.memo.inj hm
    rfl
  | @reuse w g n m r hg memo _ _ _ =>
    have hread := hr.pushReading (Option.isSome_of_eq_some memo) m.runtime (code hg)
    refine hread.calm (.note _ _) ?_ (.refl _) (push id (code hg))
    exact (World.Indifferent.refl _).note fun _ => False.elim
  | @beginCompute w g n m hg memo stale _ =>
    have hmemo := hx.isSome_memo? (Option.isSome_of_eq_some memo)
    exact hr.beginCompute ha (hd.dirtyUnread (.inr hg.not_taking)) hg (code hg) memo stale
      (ok.acyclic n hmemo)
  | endCompute _ _ _ => exact hr.computed (below hs id)
  | endReading _ _ => exact hr.gotBy (below hs id)
  | newEffect hg _ _ _ _ _ =>
    exact hr.calm hx (.pushNode w (fun _ h => by cases h)) (.push id) (push id (code hg))
  | newStore hg _ _ => exact hr.calm hx (.withStore w _) (.push id) (push id (code hg))
  | addCleanup hg _ _ _ _ _ =>
    exact hr.calm hx ((refl.note fun _ => False.elim).modifyEffect _ _) (.refl _) (code hg)
  | beginCleaning _ =>
    exact hr.calm hx (refl.cleaning _ _) (.push id) (push id (hs.not_triggers id))
  | endCleaning => exact hr.calm hx (same rfl rfl rfl) (.pop id) (below hs id)
  | beginWatch _ _ => exact hr.calm hx refl (.push id) (push id (hs.not_triggers id))
  | advance h =>
    exact hr.calm hx (same rfl h.actor?_eq rfl) (.exchange id id) (push id (below hs id))
  | keep _ _ _ => exact hr.calm hx (refl.modifyEffect _ _) (.exchange id id) (push id (below hs id))
  | endReport => exact hr.calm hx refl (.pop id) (below hs id)
  | skipPending _ => exact hr.calm hx refl (.pop id) (below hs id)
  | clearRunning _ _ => exact hr.calm hx (.clearedOf w _) (.pop id) (below hs id)
  | beginRun effect _ _ turn _ =>
    have ho := World.Indifferent.running w (Option.isSome_of_eq_some effect)
    rcases turn with ⟨rfl, -⟩ | ⟨rfl, -⟩
    · exact hr.calm hx (ho _) (.exchange id id) (push id (below hs id))
    · exact hr.calm hx (ho _) (.exchange id id) (push id (below hs id))
  | endRun _ =>
    exact hr.calm hx (.ran w (hc.frames _ List.mem_cons_self).2 _) (.pop id) (below hs id)
  | watched _ _ _ => exact hr.calm hx refl (.push id) (push id (hs.not_triggers id))
  | prime _ _ =>
    exact hr.calm hx (refl.modifyEffect _ _) (.exchange id id) (push id (below hs id))
  | skipPass _ _ _ => exact hr.calm hx refl (.exchange id id) (push id (below hs id))
  | @watchPass w g n rt batch e id _ _ _ _ =>
    refine hr.calm hx (same rfl rfl rfl) ?_
      (push (fun h => h) (push (fun h => h) (below hs fun h => h)))
    refine ((SameReads.pop (f := .watched n) ?_).trans (.push (f := .notified n) ?_)).trans
      (.push ?_)
    all_goals exact fun h => h
  | watchPostpone _ _ _ =>
    exact hr.calm hx (same rfl rfl rfl) (.exchange id id) (push id (below hs id))
  | endWatch _ =>
    refine hr.calm hx (.ran w (hc.frames _ List.mem_cons_self) _)
      ((SameReads.pop id).trans (.pop id)) fun f hf =>
        hs.not_triggers id f (List.mem_cons_of_mem _ (List.mem_cons_of_mem _ hf))
  | dispose hg _ _ _ =>
    exact hr.calm hx ((World.Indifferent.disposing w _).cleaning _ _) (.push id) (push id (code hg))
  | @retire w g u n effect _ =>
    refine hr.keep hx ((World.Indifferent.disposing w n).note fun _ => False.elim) (.refl _)
      (l := [.disposed n, .cleared n]) ?_ (by simp [Event.actor?]) id fun _ _ => id
    exact congrArg (_ :: ·) (w.history_disposing n)
  | mask hg _ _ => exact hr.calm hx (.of_eq rfl rfl) (.push id) (push id (code hg))
  | unmask => exact hr.calm hx (.of_eq rfl rfl) (.pop id) (below hs id)
  | @beginPass w g id hg _ _ _ =>
    refine hr.calm hx ?_ (.push fun h => h) (push (fun h => h) (code hg))
    exact .of_nodes (l := [.passBegan id, .passAsked id]) rfl rfl (by simp [Event.actor?])
  | @postpone w g id hg _ _ =>
    refine hr.calm hx ?_ (.refl _) (code hg)
    exact .of_nodes (l := [.passPostponed id, .passAsked id]) rfl rfl (by simp [Event.actor?])
  | endPass => exact hr.calm hx (same rfl rfl rfl) (.exchange id id) (push id (below hs id))
  | settle _ => exact hr.calm hx refl (.pop id) (below hs id)
  | forgo _ => exact hr.calm hx (.of_eq rfl rfl) (.pop id) (below hs id)
  | takeUp _ effect _ =>
    refine hr.stay hx (same rfl rfl rfl) (.exchange (fun h => h) fun h => h)
      (.of_root rfl rfl (fun k hk hclean => ?_) (below hs fun h => h))
    rw [List.mem_singleton.1 hk] at hclean
    exact absurd rfl (hclean.ne_of_effect (hx.isSome_effect? (Option.isSome_of_eq_some effect)))
  | passOver _ => exact hr.calm hx refl (.exchange id id) (push id (below hs id))
  | beginCall _ _ _ =>
    exact hr.calm hx (same rfl rfl rfl) ((SameReads.exchange id id).trans (.push fun h => h))
      (push (fun h => h) (push (fun h => h) (below hs fun h => h)))
  | subscribe hg _ _ _ =>
    exact hr.calm hx (same rfl rfl rfl) ((SameReads.push id).trans (.push fun h => h))
      (push (fun h => h) (push (fun h => h) (code hg)))
  | greet _ _ =>
    exact hr.calm hx (same rfl rfl rfl) (.exchange (fun h => h) fun h => h)
      (push (fun h => h) (below hs fun h => h))
  | endCall => exact hr.calm hx (same rfl rfl rfl) (.pop id) (below hs id)
  | newRuntime hg => exact hr.calm hx (.of_eq rfl rfl) (.refl _) (code hg)
  | beginFlush hg _ valid _ _ =>
    have hg := hg.resolve_right fun h => ok.hooks.of_extends hx _ valid h.2
    exact hr.calm hx (same rfl rfl rfl) (.push id) (push id (code hg))
  | beginRound _ =>
    exact hr.calm hx (same rfl rfl rfl) (.push id) (push id (hs.not_triggers id))
  | giveUp _ frames =>
    rcases frames with rfl | ⟨rfl, -⟩
    · exact hr.calm hx (same rfl rfl rfl) (.pop id) (below hs id)
    · exact hr.calm hx (same rfl rfl rfl) (.refl _) (hs.not_triggers id)
  | skipTurn _ => exact hr.calm hx refl (.exchange id id) (push id (below hs id))
  | beginTurn _ =>
    exact hr.calm hx (same rfl rfl rfl) ((SameReads.exchange id id).trans (.push id))
      (push id (push id (below hs id)))
  | endRound => exact hr.calm hx refl (.pop id) (below hs id)
  | endFlush _ => exact hr.calm hx (same rfl rfl rfl) (.pop id) (below hs id)
  | throw hg => exact absurd (List.mem_cons_self ..) (ok.threw _)
  | exhaust _ => exact absurd (List.mem_cons_self ..) ok.exhausted

theorem Config.reckoned_start (settings : Settings) (hook : Hook) :
    (Config.start settings hook).Reckoned where
  had _ _ hs := nomatch hs
  begun _ := by simp [Config.start, World.start, World.IsClean, World.memo?]
  running _ _ := by simp [Config.start, World.start, Open, computings]
  apart := List.nodup_nil
  start _ _ _ hc := nomatch hc
  known _ _ _ ht := nomatch ht
  caused _ _ hs := nomatch hs
  once _ hc := nomatch hc
  justified _ _ _ ho _ := nomatch List.suffix_nil.1 ho
  single n _ _ _ old ho hopen := by
    obtain rfl := List.suffix_nil.1 ho
    cases hopen.1
  rooted := .of_calm fun _ hf => nomatch hf

/-- As long as a program stays steady, nothing is interrupted, and every memo that is dirty has a
cause to be so. -/
theorem Reaches.reckoned {settings : Settings} {hook : Hook} {c : Config}
    (h : Reaches (.start settings hook) c) (ok : c.world.Steady) :
    c.unwinding = false ∧ Nested c.stack ∧ c.Reckoned := by
  induction h with
  | refl => exact ⟨rfl, trivial, Config.reckoned_start settings hook⟩
  | @tail c c' steps step ih =>
    obtain ⟨w, g, u⟩ := c
    have okw := ok.of_extends step.extends
    obtain ⟨rfl, hn, hr⟩ := ih okw
    have hc : Config.Sane ⟨w, g, false⟩ := steps.sane (Config.start_sane settings hook)
    refine ⟨step.not_unwinding ok.threw ok.exhausted, step.nested hc ok (hr.opened hc) hn, ?_⟩
    exact step.reckoned hc (steps.stacked okw.hooks) hn steps.mirrored
      (steps.attached okw.hooks okw.exhausted) (steps.unread okw.exhausted) hr ok

theorem run_finishRead_kernel (depth : Nat) (rt : RuntimeId) (n : NodeId) (r : Result) (w : World) :
    (finishRead (kernel depth) rt n r).run.run w = (.ok r, w.gotBy (w.currentReader rt) n r) := by
  rw [finishRead, Act.run_lift_bind, Act.run_lift_bind, run_noteRead, Change.run_note,
    kernel_observe]
  cases w.currentReader rt <;> rfl

section Read

variable {settings : Settings} {hook : Hook} {depth : Nat} {w w' : World} {g : List Frame}
variable {n m : NodeId} {memo : Memo} {r : Result}

theorem Reaches.about_to_return (hreach : Reaches (.start settings hook) ⟨w, g, false⟩)
    (code : AtCode g) (hn : w.memo? n = some memo) (stale : memo.dirty ∨ memo.result = none)
    (computed : ∀ x rt s, g = .running x rt :: s → w.isWatcher x = false)
    (hrun : (computeMemo (kernel depth) n memo).run.run
      (w.trackedIn memo.runtime (.memo n) .value) = (.ok r, w')) :
    ∃ w₂, w' = w₂.computed n memo.runtime r ∧ Reaches (.start settings hook)
      ⟨w₂, .computing n memo.runtime
          ((w.trackedIn memo.runtime (.memo n) .value).computing n memo.runtime).history ::
        .reading (w.currentReader memo.runtime) n :: g, false⟩ := by
  have hstep := Step.beginCompute code hn stale computed
  obtain ⟨memo', hn', -, hbody⟩ := hstep.extends.memos n memo hn
  have hvalid := ((hreach.sane (Config.start_sane settings hook)).world.memos n memo hn).2.1.mono
    hstep.extends
  have hends := (sound_kernel settings hook depth).runs_body hn' (hbody ▸ hvalid)
    (List.suffix_refl _) (hreach.tail hstep)
  rw [run_computeMemo] at hrun
  rw [hbody] at hends
  generalize ((kernel depth).call memo.body []).run.run
    ((w.trackedIn memo.runtime (.memo n) .value).computing n memo.runtime) = o at hends hrun
  rcases o with ⟨i | r', w₂⟩
  · cases (Prod.mk.inj hrun).1
  · obtain ⟨hr, hw⟩ := Prod.mk.inj hrun
    obtain rfl := Except.ok.inj hr
    exact ⟨w₂, hw.symm, hends.1⟩

theorem starts_gotBy (w : World) (reader : Option NodeId) (n m : NodeId) (r : Result) :
    starts m (w.gotBy reader n r).history = starts m w.history := by
  rw [World.history_gotBy, starts_cons (by simp), starts_append, starts_eq_zero (by simp),
    Nat.zero_add]

theorem starts_trackedIn (w : World) (rt : RuntimeId) (h : Handle) (key : Key) (m : NodeId) :
    starts m (w.trackedIn rt h key).history = starts m w.history := by
  rw [World.history_trackedIn, starts_append, starts_eq_zero (by simp), Nat.zero_add]

theorem starts_started (n : NodeId) (history : List Event) :
    starts n (.started n :: history) = starts n history + 1 := by
  rw [starts, List.countP_cons_of_pos (by simp)]
  rfl

/-- While the function of a memo is running, each memo has been started once at most since then. -/
theorem Config.Reckoned.starts_le {c : Config} (h : c.Reckoned) {n m : NodeId} {rt : RuntimeId}
    {old : List Event} (hc : .computing n rt (.started n :: .cleared n :: old) ∈ c.stack)
    (hn : c.world.effect? n = none) (hm : c.world.effect? m = none) :
    starts m c.world.history ≤ starts m old + 1 := by
  have hopen := (h.running n hn).2 (mem_computings.2 ⟨rt, _, hc⟩)
  have hsingle := h.single n m hn hm c.world.history (List.suffix_refl _) hopen
  rw [h.start n rt _ hc hn, starts_append]
  by_cases hnm : n = m
  · subst hnm
    rw [starts_eq_zero (not_started_mem_sinceStart n _), starts_started, starts_cons (by simp)]
    omega
  · rw [starts_cons (by simp [hnm]), starts_cons (by simp)]
    omega

theorem starts_readMemo (hreach : Reaches (.start settings hook) ⟨w, g, false⟩) (code : AtCode g)
    (computed : ∀ x rt s, g = .running x rt :: s → w.isWatcher x = false)
    (hrun : (readMemo (kernel depth) n).run.run w = (.ok r, w')) (ok : w'.Steady)
    (hm : (w'.memo? m).isSome) : starts m w'.history ≤ starts m w.history + 1 := by
  cases hn : w.memo? n with
  | none =>
    rw [readMemo, Act.run_get_bind, hn] at hrun
    obtain ⟨-, rfl⟩ := Prod.mk.inj hrun
    exact Nat.le_succ _
  | some memo =>
    have compute (stale : memo.dirty ∨ memo.result = none) :
        starts m w'.history ≤ starts m w.history + 1 := by
      rw [run_readMemo_stale hn stale, Act.run_bind] at hrun
      generalize hc : (computeMemo (kernel depth) n memo).run.run
        (w.trackedIn memo.runtime (.memo n) .value) = o at hrun
      rcases o with ⟨i | r', w₁⟩
      · cases (Prod.mk.inj hrun).1
      simp only [run_finishRead_kernel] at hrun
      obtain ⟨w₂, rfl, hr₂⟩ := hreach.about_to_return code hn stale computed hc
      have hx : w₂.Extends w' :=
        (World.Extends.computed ..).trans ((Prod.mk.inj hrun).2 ▸ World.Extends.gotBy ..)
      obtain ⟨-, -, hr⟩ := hr₂.reckoned (ok.of_extends hx)
      have heffect {k : NodeId} (hk : (w'.memo? k).isSome) : w₂.effect? k = none :=
        hx.effect?_eq_none (Config.Reckoned.effect?_eq_none hk)
      have hn' : (w'.memo? n).isSome := by
        have hvalid := (hr₂.sane (Config.start_sane settings hook)).frames _ List.mem_cons_self
        exact hx.isSome_memo? hvalid.2
      rw [World.history_computing] at hr
      have hle := hr.starts_le List.mem_cons_self (heffect hn') (heffect hm)
      rw [← (Prod.mk.inj hrun).2, starts_gotBy, World.history_computed, starts_cons (by simp)]
      rwa [starts_trackedIn] at hle
    cases hd : memo.dirty with
    | true => exact compute (.inl hd)
    | false =>
      cases hr : memo.result with
      | none => exact compute (.inr hr)
      | some kept =>
        rw [run_readMemo_clean hn hd hr, Act.run_lift_bind, run_finishRead_kernel] at hrun
        rw [← (Prod.mk.inj hrun).2, starts_gotBy, Change.run_note, World.history_note,
          starts_cons (by simp), starts_trackedIn]
        exact Nat.le_succ _

end Read

/-- The function of a memo is started anew only when something has happened since it last returned
that bears on what it had read, directly or through the memos that it had read; and it is started
once at most while the function of a memo is running, and so in one read of a memo. The change of an
array as a whole bears on a slot if it leaves in it something else than what it began with. -/
theorem memos_computed_only_when_needed (settings : Settings) (hook : Hook) (depth : Nat)
    (es : List Expr) :
    (Throughout settings hook depth es fun w => w.Steady → ∀ n, (w.memo? n).isSome →
      Justified n w.history ∧ ∀ m, (w.memo? m).isSome → Single m n w.history) ∧
    ∀ n r w',
      (readMemo (kernel depth) n).run.run (World.after settings hook depth es) = (.ok r, w') →
      w'.Steady → ∀ m, (w'.memo? m).isSome →
        starts m w'.history ≤ starts m (World.after settings hook depth es).history + 1 := by
  refine ⟨throughout_of_reaches (fun {c} hreach _ _ ok n hn => ?_) depth es,
    fun n r w' hrun ok m hm => ?_⟩
  · obtain ⟨-, -, hr⟩ := hreach.reckoned ok
    have hn := Config.Reckoned.effect?_eq_none hn
    exact ⟨hr.justified n hn, fun m hm => hr.single m n (Config.Reckoned.effect?_eq_none hm) hn⟩
  · exact starts_readMemo (reaches_after settings hook depth es) trivial
      (fun _ _ _ h => nomatch h) hrun ok hm

/-- A memo reads two, one of which reads the other; and what that one reads is written. -/
def diamond : List Expr :=
  withObject [.assign "a" (.memo (readProperty "x")),
    .assign "b" (.memo (.apply .readMemo [.var "a"])),
    .assign "c" (.memo (.block [.apply .readMemo [.var "a"], .apply .readMemo [.var "b"]])),
    .apply .readMemo [.var "c"], writeProperty "x" (.literal .null)]

def afterDiamond : World :=
  ((readMemo (kernel 4) 2).run.run (World.after .standard .manual 4 diamond)).2

/-- What one read of the last memo adds to the past when all three are dirty. -/
def readThrough (r : Result) : List Event :=
  [.got 2 r, .finished 2, .got 1 r, .saw 2 (.memo 1) r, .finished 1, .got 0 r, .saw 1 (.memo 0) r,
    .recalled 0, .tracked 1 (.memo 0) .value, .started 1, .cleared 1, .tracked 2 (.memo 1) .value,
    .got 0 r, .saw 2 (.memo 0) r, .finished 0, .saw 0 (.property 0 "x") r,
    .tracked 0 (.object 0) (.property "x"), .started 0, .cleared 0, .tracked 2 (.memo 0) .value,
    .started 2, .cleared 2]

theorem history_diamond : (World.after .standard .manual 4 diamond).history =
    [Event.triggered (.object 0) .shape, .triggered (.memo 1) .value, .triggered (.memo 2) .value,
      .triggered (.memo 0) .value, .triggered (.object 0) (.property "x"),
      .wrote (.property 0 "x" none (some .null))] ++ readThrough .nothing ++
    [Event.bound "c", .bound "b", .bound "a", .bound "o", .wrapped []] := by
  cbv

theorem history_afterDiamond : afterDiamond.history =
    readThrough (.value .null) ++ (World.after .standard .manual 4 diamond).history := by
  rw [history_diamond]
  cbv

theorem not_effect_of_three_memos {w : World} (size : w.nodes.size = 3) (h0 : (w.memo? 0).isSome)
    (h1 : (w.memo? 1).isSome) (h2 : (w.memo? 2).isSome) (m : Nat) : ¬ (w.effect? m).isSome := by
  intro he
  have hm : m < 3 := size ▸ World.lt_of_effect? he
  have hnone := World.memo?_eq_none_of_effect? he
  obtain rfl | rfl | rfl : m = 0 ∨ m = 1 ∨ m = 2 := by omega
  all_goals simp_all

/-- What the read gives, and what there is then: one runtime, and three nodes, all of them memos. -/
theorem parts_afterDiamond :
    ((readMemo (kernel 4) 2).run.run (World.after .standard .manual 4 diamond)).1 =
      .ok (.value .null) ∧
    afterDiamond.runtimes.size = 1 ∧ (afterDiamond.runtime 0).hook = .manual ∧
    afterDiamond.nodes.size = 3 ∧ (afterDiamond.memo? 0).isSome ∧ (afterDiamond.memo? 1).isSome ∧
    (afterDiamond.memo? 2).isSome := by
  have h : (((readMemo (kernel 4) 2).run.run (World.after .standard .manual 4 diamond)).1,
      afterDiamond.runtimes.size, (afterDiamond.runtime 0).hook, afterDiamond.nodes.size,
      (afterDiamond.memo? 0).isSome, (afterDiamond.memo? 1).isSome,
      (afterDiamond.memo? 2).isSome) =
      (.ok (.value .null), 1, .manual, 3, true, true, true) := by cbv
  simpa only [Prod.mk.injEq] using h

theorem run_afterDiamond :
    (readMemo (kernel 4) 2).run.run (World.after .standard .manual 4 diamond) =
      (.ok (.value .null), afterDiamond) := by
  obtain ⟨result, -⟩ := parts_afterDiamond
  rw [← result, afterDiamond]
  exact Prod.mk.eta.symm

theorem steady_afterDiamond : afterDiamond.Steady where
  hooks rt hrt := by
    obtain ⟨-, size, hook, -⟩ := parts_afterDiamond
    obtain rfl : rt = 0 := Nat.lt_one_iff.1 (size ▸ hrt)
    rw [hook]
    exact fun h => by cases h
  threw := by simp [history_afterDiamond, history_diamond, readThrough]
  exhausted := by simp [history_afterDiamond, history_diamond, readThrough]
  acyclic n _ old hs := by
    rw [history_afterDiamond, history_diamond] at hs
    simp only [readThrough, List.cons_append, List.nil_append, List.suffix_cons_iff,
      List.cons.injEq, reduceCtorEq, false_and, false_or, List.suffix_nil, or_false,
      Event.started.injEq] at hs
    rcases hs with ⟨rfl, rfl⟩ | ⟨rfl, rfl⟩ | ⟨rfl, rfl⟩ | ⟨rfl, rfl⟩ | ⟨rfl, rfl⟩ | ⟨rfl, rfl⟩
    all_goals simp [Open, sinceStart]
  reads n _ e old hs ho hi := by
    rw [history_afterDiamond, history_diamond] at hs
    cases e with
    | started m =>
      obtain ⟨-, -, -, size, h0, h1, h2⟩ := parts_afterDiamond
      exact not_effect_of_three_memos size h0 h1 h2 m hi
    | wrote write =>
      simp only [readThrough, List.cons_append, List.nil_append, List.suffix_cons_iff,
        List.cons.injEq, reduceCtorEq, false_and, false_or, List.suffix_nil, or_false] at hs
      obtain ⟨-, rfl⟩ := hs
      have hn : n = 1 ∨ n = 0 ∨ n = 2 := by simpa using ho.1
      rcases hn with rfl | rfl | rfl
      all_goals simp [Open, sinceStart] at ho
    | changeBegan | dirtied | passAsked | delivered | flushBegan =>
      simp [readThrough, List.suffix_cons_iff] at hs
    | _ => exact hi

theorem memos_computed_only_when_needed_diamond :
    (Throughout .standard .manual 4 diamond fun w => w.Steady → ∀ n, (w.memo? n).isSome →
      Justified n w.history ∧ ∀ m, (w.memo? m).isSome → Single m n w.history) ∧
    (afterDiamond.memo? 0).isSome ∧ starts 0 afterDiamond.history = 2 ∧
      starts 0 afterDiamond.history ≤
        starts 0 (World.after .standard .manual 4 diamond).history + 1 := by
  obtain ⟨-, -, -, -, hm, -⟩ := parts_afterDiamond
  obtain ⟨hthroughout, hread⟩ := memos_computed_only_when_needed .standard .manual 4 diamond
  refine ⟨hthroughout, hm, ?_, hread 2 _ _ run_afterDiamond steady_afterDiamond 0 hm⟩
  rw [history_afterDiamond, history_diamond]
  rfl

/-- A callback of a change of an array as a whole writes the array too, and so that it has already
what the change leaves in it. -/
def retaining : List Expr :=
  [.assign "a" (.apply .wrap [.literal (.array [.bool false, .bool true])]),
    .assign "m" (.memo (.container .values (.var "a") [])), .apply .readMemo [.var "m"],
    .retain (.var "a") (.cond (.argument 0) (.literal (.bool true))
      (.block [.container .reverse (.var "a") [], .container .pop (.var "a") [],
        .apply .readMemo [.var "m"], .literal (.bool false)])),
    .apply .readMemo [.var "m"]]

theorem history_retaining : (World.after .standard .manual 4 retaining).history =
    [.got 0 (.list [.value (.bool true)]), .finished 0,
      .saw 0 (.values 0) (.list [.value (.bool true)]), .tracked 0 (.array 0) (.index 0),
      .tracked 0 (.array 0) .shape, .started 0, .cleared 0, .triggered (.array 0) .shape,
      .triggered (.array 0) (.index 1), .triggered (.memo 0) .value,
      .triggered (.array 0) (.index 0),
      .wrote (.items 0 [.bool false, .bool true] [.bool true]), .changeEnded 0,
      .got 0 (.list [.value (.bool true)]), .finished 0,
      .saw 0 (.values 0) (.list [.value (.bool true)]), .tracked 0 (.array 0) (.index 0),
      .tracked 0 (.array 0) .shape, .started 0, .cleared 0, .triggered (.array 0) .shape,
      .triggered (.array 0) (.index 1), .wrote (.items 0 [.bool true, .bool false] [.bool true]),
      .changeEnded 0, .changeBegan 0, .triggered (.array 0) .shape,
      .triggered (.array 0) (.index 1), .triggered (.memo 0) .value,
      .triggered (.array 0) (.index 0),
      .wrote (.items 0 [.bool false, .bool true] [.bool true, .bool false]), .changeEnded 0,
      .changeBegan 0, .changeBegan 0, .got 0 (.list [.value (.bool false), .value (.bool true)]),
      .finished 0, .saw 0 (.values 0) (.list [.value (.bool false), .value (.bool true)]),
      .tracked 0 (.array 0) (.index 1), .tracked 0 (.array 0) (.index 0),
      .tracked 0 (.array 0) .shape, .started 0, .cleared 0, .bound "m", .bound "a",
      .wrapped [.bool false, .bool true]] := by
  cbv

/-- The function of a memo is started again though nobody has made a memo dirty and all that was
written since is what it had read: the change of an array as a whole compares what it leaves with
what it began with. -/
theorem recomputed_without_change : ∃ recent mid old,
    (World.after .standard .manual 4 retaining).history =
      recent ++ .started 0 :: (mid ++ .started 0 :: old) ∧
    (∀ h key, .tracked 0 h key ∈ mid → h = .array 0) ∧
    .saw 0 (.values 0) (.list [.value (.bool true)]) ∈ mid ∧ (∀ n, .dirtied n ∉ mid) ∧
    (∀ write, .wrote write ∈ mid → ∃ before, write = .items 0 before [.bool true]) ∧
    .saw 0 (.values 0) (.list [.value (.bool true)]) ∈ recent := by
  refine ⟨[.got 0 (.list [.value (.bool true)]), .finished 0,
      .saw 0 (.values 0) (.list [.value (.bool true)]), .tracked 0 (.array 0) (.index 0),
      .tracked 0 (.array 0) .shape],
    [.cleared 0, .triggered (.array 0) .shape, .triggered (.array 0) (.index 1),
      .triggered (.memo 0) .value, .triggered (.array 0) (.index 0),
      .wrote (.items 0 [.bool false, .bool true] [.bool true]), .changeEnded 0,
      .got 0 (.list [.value (.bool true)]), .finished 0,
      .saw 0 (.values 0) (.list [.value (.bool true)]), .tracked 0 (.array 0) (.index 0),
      .tracked 0 (.array 0) .shape], _, history_retaining, fun h key ht => ?_, ?_, ?_, ?_, ?_⟩
  · have ht : h = .array 0 ∧ key = .index 0 ∨ h = .array 0 ∧ key = .shape := by simpa using ht
    exact ht.elim And.left And.left
  all_goals simp

end Reactivity
