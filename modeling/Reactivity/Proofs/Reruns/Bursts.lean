import Reactivity.Proofs.Reruns.Served
import Reactivity.Proofs.Registration.Listing
import Reactivity.Proofs.Registration.Unread

/-!
What a burst of writes between two flushes leaves queued. Those are told of a change whose latest run
depends on what was written, directly or through memos; and of these nobody is left out, in whatever
order the parts are written and the memos are read meanwhile.
-/

namespace Reactivity

/-- The latest run of the node has read the part, or a memo whose latest run depends on it. -/
inductive DependsOn (past : List Event) : NodeId → Handle → Key → Prop
  | direct {n : NodeId} {h : Handle} {key : Key} (read : .tracked n h key ∈ sinceStart n past) :
    DependsOn past n h key
  | through {n m : NodeId} {h : Handle} {key : Key}
    (read : .tracked n (.memo m) .value ∈ sinceStart n past) (depends : DependsOn past m h key) :
    DependsOn past n h key

/-- One of the writes of the burst has changed something that the latest run of the node depended on
when the burst began. -/
def Woken (past burst : List Event) (n : NodeId) : Prop :=
  ∃ write, .wrote write ∈ burst ∧ ∃ key ∈ write.changed, DependsOn past n write.handle key

def Roused (past burst : List Event) (n : NodeId) : Prop :=
  .started n ∈ burst ∨ Woken past burst n

/-- The part was changed by one of the writes of the burst, or it is the value of a memo that was
roused. -/
def Upset (past burst : List Event) (h : Handle) (key : Key) : Prop :=
  (∃ write, .wrote write ∈ burst ∧ write.handle = h ∧ key ∈ write.changed) ∨
    ∃ m, h = .memo m ∧ key = .value ∧ Roused past burst m

section Append

variable {past burst new : List Event} {n : NodeId} {h : Handle} {key : Key}

theorem Woken.append (hw : Woken past burst n) : Woken past (new ++ burst) n := by
  obtain ⟨write, hm, hkey⟩ := hw
  exact ⟨write, List.mem_append_right _ hm, hkey⟩

theorem Roused.append (hr : Roused past burst n) : Roused past (new ++ burst) n :=
  hr.imp (List.mem_append_right _) Woken.append

theorem Upset.append (hu : Upset past burst h key) : Upset past (new ++ burst) h key := by
  refine hu.imp ?_ ?_
  · rintro ⟨write, hm, hwrite⟩
    exact ⟨write, List.mem_append_right _ hm, hwrite⟩
  · rintro ⟨m, hh, hkey, hr⟩
    exact ⟨m, hh, hkey, hr.append⟩

end Append

/-- Whoever is registered on a part afterwards was before, or has read it meanwhile. -/
theorem enrolled_of_append {n : NodeId} {h : Handle} {key : Key} {new history : List Event}
    (he : enrolled n h key (new ++ history) = true) :
    .tracked n h key ∈ new ∨ enrolled n h key history = true := by
  induction new with
  | nil => exact .inr he
  | cons e new ih =>
    by_cases ht : e = .tracked n h key
    · exact .inl (ht ▸ List.mem_cons_self)
    · by_cases hc : e = .cleared n
      · rw [hc, List.cons_append, enrolled_cleared] at he
        cases he
      · by_cases hx : e = .triggered h key
        · rw [hx, List.cons_append, enrolled_triggered] at he
          cases he
        · rw [List.cons_append, enrolled_cons ht hc hx] at he
          exact (ih he).imp_left (List.mem_cons_of_mem _)

/-- The part is one of those whose readers are still to be told of a change. -/
def ToTrigger (fs : List Frame) (h : Handle) (key : Key) : Prop :=
  ∃ rt keys, .writing rt h keys ∈ fs ∧ key ∈ keys

def ToTell (fs : List Frame) (n : NodeId) : Prop :=
  ∃ rt ns, .telling rt ns ∈ fs ∧ n ∈ ns

/-- What has happened in a burst of writes and reads, since the past. Whoever has read something was
started before; what was written is triggered; and who is told of it, and queued, was roused. -/
structure Stirred (past burst : List Event) (history : List Event) (fs : List Frame) : Prop where
  whole : history = burst ++ past
  active : ∀ n ∈ actives fs, .started n ∈ burst
  calm : ∀ rt, .flushing rt ∉ fs
  tracked : ∀ n h key, .tracked n h key ∈ burst → .started n ∈ burst
  triggered : ∀ write, .wrote write ∈ burst → ∀ key ∈ write.changed,
    .triggered write.handle key ∈ burst ∨ ToTrigger fs write.handle key
  upset : ∀ h key, ToTrigger fs h key → Upset past burst h key
  told : ∀ n, ToTell fs n → Roused past burst n
  queued : ∀ rt n, .queued rt n ∈ burst → Roused past burst n
  renewed : ∀ n m, enrolled n (.memo m) .value history = true → .started m ∈ burst →
    .started n ∈ burst

namespace Stirred

variable {past burst history new : List Event} {fs fs' : List Frame}

theorem go (hs : Stirred past burst history fs)
    (active : ∀ n ∈ actives fs', n ∈ actives fs ∨ .started n ∈ new)
    (calm : ∀ rt, .flushing rt ∈ fs' → .flushing rt ∈ fs)
    (tracked : ∀ n h key, .tracked n h key ∈ new → n ∈ actives fs)
    (triggered : ∀ write, .wrote write ∈ new → ∀ key ∈ write.changed, ToTrigger fs' write.handle key)
    (pending : ∀ h key, ToTrigger fs h key → .triggered h key ∈ new ∨ ToTrigger fs' h key)
    (upset : ∀ h key, ToTrigger fs' h key → ToTrigger fs h key ∨ Upset past (new ++ burst) h key)
    (told : ∀ n, ToTell fs' n → ToTell fs n ∨ Roused past (new ++ burst) n)
    (queued : ∀ rt n, .queued rt n ∈ new → ToTell fs n)
    (renewed : ∀ m, .started m ∈ new → ∀ n, enrolled n (.memo m) .value history = true →
      .started n ∈ new ++ burst) :
    Stirred past (new ++ burst) (new ++ history) fs' where
  whole := by rw [hs.whole, List.append_assoc]
  active n hn := by
    rcases active n hn with hn | hn
    · exact List.mem_append_right _ (hs.active n hn)
    · exact List.mem_append_left _ hn
  calm rt hf := hs.calm rt (calm rt hf)
  tracked n h key ht := by
    refine List.mem_append_right _ ?_
    exact (List.mem_append.1 ht).elim (fun ht => hs.active n (tracked n h key ht)) (hs.tracked n h key)
  triggered write hw key hkey := by
    rcases List.mem_append.1 hw with hw | hw
    · exact .inr (triggered write hw key hkey)
    · rcases hs.triggered write hw key hkey with ht | ht
      · exact .inl (List.mem_append_right _ ht)
      · exact (pending _ key ht).imp_left (List.mem_append_left _)
  upset h key ht := (upset h key ht).elim (fun ht => (hs.upset h key ht).append) id
  told n ht := (told n ht).elim (fun ht => (hs.told n ht).append) id
  queued rt n hq := by
    rcases List.mem_append.1 hq with hq | hq
    · exact (hs.told n (queued rt n hq)).append
    · exact (hs.queued rt n hq).append
  renewed n m he hm := by
    rcases enrolled_of_append he with ht | he
    · exact List.mem_append_right _ (hs.active n (tracked n _ _ ht))
    · rcases List.mem_append.1 hm with hm | hm
      · exact renewed m hm n he
      · exact List.mem_append_right _ (hs.renewed n m he hm)

/-- Nothing happens that is about changes or runs, but that somebody reads something who is running;
and what is left to be done is left. -/
theorem rest (hs : Stirred past burst history fs)
    (quiet : ∀ e ∈ new, e.Stirs → (∃ n, e = .cleared n) ∨ ∃ n ∈ actives fs, ∃ h key, e = .tracked n h key)
    (below : ∀ f, f.works → f ∈ fs' → f ∈ fs)
    (kept : ∀ rt h key keys, .writing rt h (key :: keys) ∈ fs → .writing rt h (key :: keys) ∈ fs') :
    Stirred past (new ++ burst) (new ++ history) fs' := by
  have none {e : Event} (stirs : e.Stirs) (hc : ∀ n, e ≠ .cleared n) (ht : ∀ n h key, e ≠ .tracked n h key) :
      e ∉ new := by
    intro hm
    rcases quiet e hm stirs with ⟨n, he⟩ | ⟨n, -, h, key, he⟩
    · exact hc n he
    · exact ht n h key he
  refine hs.go (fun n hn => .inl ?_) (fun rt => below _ rfl) (fun n h key hm => ?_)
    (fun write hm key hkey => absurd hm ?_) (fun h key ht => .inr ?_) (fun h key ht => .inl ?_)
    (fun n ht => .inl ?_) (fun rt n hm => absurd hm (none trivial (by simp) (by simp)))
    fun m hm => absurd hm (none trivial (by simp) (by simp))
  · rw [mem_actives] at hn ⊢
    exact hn.imp (fun ⟨rt, hf⟩ => ⟨rt, below _ rfl hf⟩) fun ⟨rt, start, hf⟩ => ⟨rt, start, below _ rfl hf⟩
  · rcases quiet _ hm trivial with ⟨m, he⟩ | ⟨m, hactive, h', key', he⟩
    · cases he
    · obtain ⟨rfl, -⟩ := Event.tracked.inj he
      exact hactive
  · exact none (List.ne_nil_of_mem hkey) (by simp) (by simp)
  · obtain ⟨rt, keys, hf, hkey⟩ := ht
    cases keys with
    | nil => cases hkey
    | cons k keys => exact ⟨rt, k :: keys, kept rt h k keys hf, hkey⟩
  · obtain ⟨rt, keys, hf, hkey⟩ := ht
    exact ⟨rt, keys, below _ rfl hf, hkey⟩
  · obtain ⟨rt, ns, hf, hn⟩ := ht
    exact ⟨rt, ns, below _ rfl hf, hn⟩

theorem tell {rt : RuntimeId} {n : NodeId} {ns : List NodeId} {g : List Frame}
    (hs : Stirred past burst history (.telling rt (n :: ns) :: g))
    (quiet : ∀ e ∈ new, e.Stirs → e = .queued rt n) :
    Stirred past (new ++ burst) (new ++ history) (.telling rt ns :: g) := by
  have none {e : Event} (stirs : e.Stirs) (hq : e ≠ .queued rt n) : e ∉ new :=
    fun hm => hq (quiet e hm stirs)
  refine hs.go (fun n hn => .inl hn) (by simp) (fun k h key hm => absurd hm (none trivial (by simp)))
    (fun write hm key hkey => absurd hm (none (e := .wrote write) (List.ne_nil_of_mem hkey) (by simp)))
    (fun h key ht => .inr ?_) (fun h key ht => .inl ?_) (fun k ht => .inl ?_) (fun rt' k hm => ?_)
    fun m hm => absurd hm (none trivial (by simp))
  · simpa [ToTrigger] using ht
  · simpa [ToTrigger] using ht
  · obtain ⟨rt', ns', hf, hk⟩ := ht
    rcases List.mem_cons.1 hf with he | hf
    · obtain ⟨rfl, rfl⟩ := Frame.telling.inj he
      exact ⟨_, _, List.mem_cons_self, List.mem_cons_of_mem _ hk⟩
    · exact ⟨rt', ns', List.mem_cons_of_mem _ hf, hk⟩
  · obtain ⟨rfl, rfl⟩ := Event.queued.inj (quiet _ hm trivial)
    exact ⟨_, _, List.mem_cons_self, List.mem_cons_self⟩

theorem forward (hs : Stirred past burst history fs) {n : NodeId} (hn : Roused past burst n)
    (rt : RuntimeId) : Stirred past burst history (.writing rt (.memo n) [.value] :: fs) := by
  change Stirred past ([] ++ burst) ([] ++ history) _
  refine hs.go (fun n hn => .inl hn) (by simp) (by simp) (by simp) (fun h key ht => .inr ?_)
    (fun h key ht => ?_) (fun k ht => .inl ?_) (by simp) (by simp)
  · obtain ⟨rt', keys, hf, hkey⟩ := ht
    exact ⟨rt', keys, List.mem_cons_of_mem _ hf, hkey⟩
  · obtain ⟨rt', keys, hf, hkey⟩ := ht
    rcases List.mem_cons.1 hf with he | hf
    · obtain ⟨-, rfl, rfl⟩ := Frame.writing.inj he
      exact .inr (.inr ⟨n, rfl, List.mem_singleton.1 hkey, hn⟩)
    · exact .inl ⟨rt', keys, hf, hkey⟩
  · simpa [ToTell] using ht

theorem write {rt : RuntimeId} {write : Write} (hs : Stirred past burst history fs)
    (frames : work fs' = .writing rt write.handle write.changed :: work fs)
    (quiet : ∀ e ∈ new, ¬ e.Stirs) :
    Stirred past (.wrote write :: new ++ burst) (.wrote write :: new ++ history) fs' := by
  have above {f : Frame} (hf : f.works) :
      f ∈ fs' ↔ f = .writing rt write.handle write.changed ∨ f ∈ fs := mem_of_work_cons frames hf
  have none {e : Event} (hw : e ≠ .wrote write) (stirs : e.Stirs) : e ∉ .wrote write :: new :=
    fun hm => quiet e ((List.mem_cons.1 hm).resolve_left hw) stirs
  refine hs.go (fun k hk => .inl ?_) (fun rt hf => ((above rfl).1 hf).resolve_left (by simp))
    (fun k h key hm => ?_) (fun write' hm key hkey => ?_) (fun h key ht => .inr ?_)
    (fun h key ht => ?_) (fun k ht => .inl ?_) (fun rt k hm => ?_) fun k hm => ?_
  · rw [← actives_work, frames] at hk
    exact actives_work fs ▸ hk
  · exact absurd hm (none (by simp) trivial)
  · obtain rfl : write' = write := by
      by_contra hne
      exact none (e := .wrote write') (by simpa using hne) (List.ne_nil_of_mem hkey) hm
    exact ⟨rt, _, (above rfl).2 (.inl rfl), hkey⟩
  · obtain ⟨rt', keys, hf, hkey⟩ := ht
    exact ⟨rt', keys, (above rfl).2 (.inr hf), hkey⟩
  · obtain ⟨rt', keys, hf, hkey⟩ := ht
    rcases (above rfl).1 hf with he | hf
    · obtain ⟨-, rfl, rfl⟩ := Frame.writing.inj he
      exact .inr (.inl ⟨write, List.mem_append_left _ List.mem_cons_self, rfl, hkey⟩)
    · exact .inl ⟨rt', keys, hf, hkey⟩
  · obtain ⟨rt', ns, hf, hk⟩ := ht
    exact ⟨rt', ns, ((above rfl).1 hf).resolve_left (by simp), hk⟩
  · exact absurd hm (none (by simp) trivial)
  · exact absurd hm (none (by simp) trivial)

theorem trigger {rt : RuntimeId} {h : Handle} {key : Key} {keys : List Key} {ns : List NodeId}
    {g : List Frame} (hs : Stirred past burst history (.writing rt h (key :: keys) :: g))
    (roused : ∀ n ∈ ns, Roused past burst n) :
    Stirred past ([.triggered h key] ++ burst) ([.triggered h key] ++ history)
      (.telling rt ns :: .writing rt h keys :: g) := by
  refine hs.go (fun k hk => .inl hk) (by simp) (by simp) (by simp) (fun h' key' ht => ?_)
    (fun h' key' ht => .inl ?_) (fun k ht => ?_) (by simp) (by simp)
  · obtain ⟨rt', keys', hf, hkey⟩ := ht
    rcases List.mem_cons.1 hf with he | hf
    · obtain ⟨rfl, rfl, rfl⟩ := Frame.writing.inj he
      rcases List.mem_cons.1 hkey with rfl | hkey
      · exact .inl List.mem_cons_self
      · exact .inr ⟨rt', keys, by simp, hkey⟩
    · exact .inr ⟨rt', keys', by simp [hf], hkey⟩
  · obtain ⟨rt', keys', hf, hkey⟩ := ht
    rcases List.mem_cons.1 ((List.mem_cons.1 hf).resolve_left (by simp)) with he | hf
    · obtain ⟨rfl, rfl, rfl⟩ := Frame.writing.inj he
      exact ⟨rt', key :: keys', List.mem_cons_self, List.mem_cons_of_mem _ hkey⟩
    · exact ⟨rt', keys', List.mem_cons_of_mem _ hf, hkey⟩
  · obtain ⟨rt', ns', hf, hk⟩ := ht
    rcases List.mem_cons.1 hf with he | hf
    · obtain ⟨-, rfl⟩ := Frame.telling.inj he
      exact .inr (roused k hk).append
    · exact .inl ⟨rt', ns', List.mem_cons_of_mem _ ((List.mem_cons.1 hf).resolve_left (by simp)), hk⟩

/-- The function of a memo is started on which nobody was registered. -/
theorem compute {n : NodeId} {rt : RuntimeId} {start reads : List Event}
    (hs : Stirred past burst history fs) (frames : work fs' = .computing n rt start :: work fs)
    (hreads : ∀ e ∈ reads, ∃ x ∈ actives fs, e = .tracked x (.memo n) .value)
    (unread : ∀ x, enrolled x (.memo n) .value history = false) :
    Stirred past (.started n :: .cleared n :: reads ++ burst)
      (.started n :: .cleared n :: reads ++ history) fs' := by
  have above {f : Frame} (hf : f.works) : f ∈ fs' ↔ f = .computing n rt start ∨ f ∈ fs :=
    mem_of_work_cons frames hf
  have only {e : Event} (hs : e ≠ .started n) (hc : e ≠ .cleared n)
      (he : e ∈ .started n :: .cleared n :: reads) :
      ∃ x ∈ actives fs, e = .tracked x (.memo n) .value :=
    hreads e ((List.mem_cons.1 ((List.mem_cons.1 he).resolve_left hs)).resolve_left hc)
  refine hs.go (fun k hk => ?_) (fun rt hf => ((above rfl).1 hf).resolve_left (by simp))
    (fun k h key hm => ?_) (fun write hm => ?_) (fun h key ht => .inr ?_) (fun h key ht => .inl ?_)
    (fun k ht => .inl ?_) (fun rt k hm => ?_) fun k hm x he => ?_
  · rw [← actives_work, frames, actives, actives_work] at hk
    rcases List.mem_cons.1 hk with rfl | hk
    · exact .inr List.mem_cons_self
    · exact .inl hk
  · obtain ⟨x, hx, he⟩ := only (by simp) (by simp) hm
    exact (Event.tracked.inj he).1 ▸ hx
  · obtain ⟨x, -, he⟩ := only (by simp) (by simp) hm
    cases he
  · obtain ⟨rt', keys, hf, hkey⟩ := ht
    exact ⟨rt', keys, (above rfl).2 (.inr hf), hkey⟩
  · obtain ⟨rt', keys, hf, hkey⟩ := ht
    exact ⟨rt', keys, ((above rfl).1 hf).resolve_left (by simp), hkey⟩
  · obtain ⟨rt', ns, hf, hk⟩ := ht
    exact ⟨rt', ns, ((above rfl).1 hf).resolve_left (by simp), hk⟩
  · obtain ⟨x, -, he⟩ := only (by simp) (by simp) hm
    cases he
  · obtain rfl : k = n := by
      by_contra hkn
      obtain ⟨x, -, he⟩ := only (by simpa using hkn) (by simp) hm
      cases he
    rw [unread x] at he
    cases he

/-- An effect is run, on which nobody can be registered. -/
theorem run {n : NodeId} {rt : RuntimeId} {f : Frame} {g : List Frame}
    (hs : Stirred past burst history (f :: g)) (turn : f = .pending n ∨ f = .created n)
    (unread : ∀ x, enrolled x (.memo n) .value history = false) :
    Stirred past ([.started n, .cleared n] ++ burst) ([.started n, .cleared n] ++ history)
      (.running n rt :: g) := by
  refine hs.go (fun k hk => ?_) (fun rt' hf => ?_) (by simp) (by simp) (fun h key ht => .inr ?_)
    (fun h key ht => .inl ?_) (fun k ht => .inl ?_) (by simp) fun k hm x he => ?_
  · rcases List.mem_cons.1 hk with rfl | hk
    · exact .inr List.mem_cons_self
    · rcases turn with rfl | rfl <;> exact .inl hk
  · exact List.mem_cons_of_mem _ ((List.mem_cons.1 hf).resolve_left (by simp))
  · obtain ⟨rt', keys, hf, hkey⟩ := ht
    refine ⟨rt', keys, List.mem_cons_of_mem _ ((List.mem_cons.1 hf).resolve_left ?_), hkey⟩
    rcases turn with rfl | rfl <;> simp
  · obtain ⟨rt', keys, hf, hkey⟩ := ht
    exact ⟨rt', keys, List.mem_cons_of_mem _ ((List.mem_cons.1 hf).resolve_left (by simp)), hkey⟩
  · obtain ⟨rt', ns, hf, hk⟩ := ht
    exact ⟨rt', ns, List.mem_cons_of_mem _ ((List.mem_cons.1 hf).resolve_left (by simp)), hk⟩
  · obtain rfl : k = n := by simpa using hm
    rw [unread x] at he
    cases he

end Stirred

/-- The program asks for more than writes and reads: an effect is scheduled, a memo is marked dirty, or
a flush begins. -/
def Event.Demands : Event → Prop
  | .scheduled _ | .dirtied _ | .flushBegan _ => True
  | _ => False

section Works

variable {settings : Settings} {hook : Hook} {w w' : World} {g g' : List Frame}
variable {past burst : List Event}

/-- Nobody is registered on a memo whose function is started, but those who read it now. -/
theorem Reaches.readers_of_stale {n : NodeId} {m : Memo}
    (h : Reaches (.start settings hook) ⟨w, g, false⟩) (ok : w.Steady) (code : AtCode g)
    (memo : w.memo? n = some m) (stale : m.dirty ∨ m.result = none) (closed : ¬ Open n w.history) :
    w.readers (.memo n) = [] := by
  refine h.dirtyUnread (.inl code) ok.exhausted n ?_
  rw [World.isDirty, memo]
  refine stale.elim id fun none => ?_
  by_contra hd
  have hr := (h.reckoned ok).2.2
  have hs := hr.begun n ⟨m, memo, Bool.eq_false_iff.2 hd⟩
  obtain ⟨m', hm', ho⟩ := hr.had n
    (Config.Reckoned.effect?_eq_none (Option.isSome_of_eq_some memo)) hs
  obtain rfl : m = m' := Option.some.inj (memo.symm.trans hm')
  exact closed (ho none)

theorem Reaches.enrolled_eq_false {u : Bool} {n : NodeId}
    (h : Reaches (.start settings hook) ⟨w, g, u⟩)
    (none : ∀ x, (.value, x) ∉ w.readers (.memo n)) (x : NodeId) :
    enrolled x (.memo n) .value w.history = false := by
  by_contra he
  exact none x ((h.enlisted.enrolled x (.memo n) .value).2 (by simpa using he))

/-- Whoever is registered on a part that was written depended on it when the burst began, or has been
started since. -/
theorem Stirred.roused {fs : List Frame} {u : Bool} {n : NodeId} {h : Handle} {key : Key}
    (hs : Stirred past burst w.history fs) (hreach : Reaches (.start settings hook) ⟨w, g, u⟩)
    (upset : Upset past burst h key) (registered : (key, n) ∈ w.readers h) : Roused past burst n := by
  by_cases started : .started n ∈ burst
  · exact .inl started
  · have read := hreach.mirrored.run h key n registered
    rw [hs.whole, sinceStart_append started] at read
    have read := (List.mem_append.1 read).resolve_left fun ht => started (hs.tracked n h key ht)
    rcases upset with ⟨write, hw, rfl, hkey⟩ | ⟨m, rfl, rfl, hm | ⟨write, hw, k, hk, depends⟩⟩
    · exact .inr ⟨write, hw, key, hkey, .direct read⟩
    · exact .inl (hs.renewed n m ((hreach.enlisted.enrolled n _ _).1 registered) hm)
    · exact .inr ⟨write, hw, k, hk, .through read depends⟩

theorem Works.stirred (h : Works ⟨w, g, false⟩ ⟨w', g', false⟩)
    (hreach : Reaches (.start settings hook) ⟨w, g, false⟩) (ok : w'.Observing) (hx : w.Extends w')
    (plain : ∀ new, w'.history = new ++ w.history → ∀ e ∈ new, ¬ e.Demands)
    (hs : Stirred past burst w.history g) :
    ∃ new, w'.history = new ++ w.history ∧ Stirred past (new ++ burst) (new ++ w.history) g' := by
  have flushing {f : Frame} (hf : f ∈ g)
      (round : (∃ n, f = .pending n) ∨ ∃ rt batch, f = .round rt batch) : False :=
    (hreach.standing.1.exists_flushing hf round).elim hs.calm
  have same (frames : work g' = work g) (f : Frame) (hf : f.works) : f ∈ g' ↔ f ∈ g :=
    mem_of_work frames hf
  cases h with
  | rest past frames =>
    obtain ⟨new, past, hnew⟩ := past
    exact ⟨new, past, hs.rest (fun e he ht => absurd ht (hnew e he)) (fun f hf => (same frames f hf).1)
      fun _ _ _ _ => (same frames _ rfl).2⟩
  | @ended _ _ _ _ f past done frames =>
    obtain ⟨new, past, hnew⟩ := past
    have below {x : Frame} (hx : x.works) : x ∈ g ↔ x = f ∨ x ∈ g' := mem_of_work_cons frames hx
    refine ⟨new, past, hs.rest (fun e he ht => absurd ht (hnew e he))
      (fun x hx hf => (below hx).2 (.inr hf)) fun rt h key keys hf => ?_⟩
    refine ((below rfl).1 hf).resolve_left ?_
    rintro rfl
    exact done
  | @track _ _ _ _ n h key active past frames =>
    obtain ⟨new, past, hnew⟩ := past
    rw [List.append_cons] at past
    refine ⟨_, past, hs.rest (fun e he ht => .inr ?_) (fun f hf => (same frames f hf).1)
      fun _ _ _ _ => (same frames _ rfl).2⟩
    rcases List.mem_append.1 he with he | he
    · exact absurd ht (hnew e he)
    · exact ⟨n, active, h, key, List.mem_singleton.1 he⟩
  | @compute _ _ _ _ n m rt start old code memo stale past tracked frames =>
    obtain ⟨reads, rfl, hreads⟩ : ∃ reads, old = reads ++ w.history ∧
        ∀ e ∈ reads, ∃ x ∈ actives g, e = .tracked x (.memo n) .value := by
      rcases tracked with rfl | ⟨x, hactive, rfl⟩
      · exact ⟨[], rfl, List.forall_mem_nil _⟩
      · exact ⟨[_], rfl, List.forall_mem_singleton.2 ⟨x, hactive, rfl⟩⟩
    have closed : ¬ Open n w.history := by
      intro ho
      refine ok.steady.acyclic n (hx.isSome_memo? (Option.isSome_of_eq_some memo)) _ ⟨[], past.symm⟩ ?_
      refine Open.cons (ho.append fun hm => ?_) (by simp)
      obtain ⟨x, -, he⟩ := hreads _ hm
      cases he
    have hnone := hreach.readers_of_stale (ok.of_extends hx).steady code memo stale closed
    exact ⟨.started n :: .cleared n :: reads, past,
      hs.compute frames hreads (hreach.enrolled_eq_false (by simp [hnone]))⟩
  | @write _ _ _ _ rt write past frames =>
    obtain ⟨new, past, hnew⟩ := past
    exact ⟨.wrote write :: new, past, hs.write frames hnew⟩
  | @trigger _ g rt h key keys =>
    have upset := hs.upset h key ⟨rt, key :: keys, List.mem_cons_self, List.mem_cons_self⟩
    exact ⟨[.triggered h key], World.history_taken .., hs.trigger fun n hn =>
      hs.roused hreach upset (Readers.mem_on.1 hn)⟩
  | tell past => exact ⟨[], past, hs.tell (List.forall_mem_nil _)⟩
  | @forward _ _ g rt n ns past =>
    have hn := hs.told n ⟨rt, n :: ns, List.mem_cons_self, List.mem_cons_self⟩
    exact ⟨[], past, (hs.tell (List.forall_mem_nil _)).forward hn rt⟩
  | @enqueue _ g rt n ns =>
    rcases World.history_queuedIn w rt n with past | past
    · exact ⟨[.queued rt n], past, hs.tell (by simp)⟩
    · exact ⟨[.requested rt, .queued rt n], past, hs.tell (by simp [Event.Stirs])⟩
  | @schedule _ _ rt n code =>
    have hn := World.history_queuedIn (w.note (.scheduled n)) rt n
    rcases hn with hn | hn
    · exact absurd trivial (plain [.queued rt n, .scheduled n] hn (.scheduled n) (by simp))
    · exact absurd trivial
        (plain [.requested rt, .queued rt n, .scheduled n] hn (.scheduled n) (by simp))
  | @dirty _ _ _ rt n past => exact absurd trivial (plain [.dirtied n] past _ List.mem_cons_self)
  | @takeUp _ _ _ _ rt n past frames =>
    exact absurd trivial (plain [.scheduled n] past _ List.mem_cons_self)
  | @run _ f g n rt turn =>
    have effect : (w.effect? n).isSome := by
      have hf := (hreach.sane (Config.start_sane settings hook)).frames f List.mem_cons_self
      rcases turn with rfl | rfl <;> exact hf
    have unread (x : NodeId) : (.value, x) ∉ w.readers (.memo n) := fun hmem => by
      have hmemo : (w.memo? n).isSome := World.valid_of_mem_readers hmem
      rw [World.memo?_eq_none_of_effect? effect] at hmemo
      cases hmemo
    exact ⟨[.started n, .cleared n], World.history_running .., hs.run turn (hreach.enrolled_eq_false unread)⟩
  | clear busy => exact (flushing List.mem_cons_self (.inl ⟨_, rfl⟩)).elim
  | @dispose _ _ _ _ n disposed past frames =>
    obtain ⟨new, past, hnew⟩ := past
    rw [List.append_cons] at past
    refine ⟨_, past, hs.rest (fun e he ht => .inl ?_) (fun f hf => (same frames f hf).1)
      fun _ _ _ _ => (same frames _ rfl).2⟩
    rcases List.mem_append.1 he with he | he
    · exact absurd ht (hnew e he)
    · exact ⟨n, List.mem_singleton.1 he⟩
  | @beginFlush _ _ rt => exact absurd trivial (plain [.flushBegan rt] rfl _ List.mem_cons_self)
  | beginRound => exact absurd List.mem_cons_self (hs.calm _)
  | giveUp work frames =>
    rcases frames with rfl | ⟨rfl, -⟩
    · exact (flushing List.mem_cons_self (.inr ⟨_, _, rfl⟩)).elim
    · exact absurd List.mem_cons_self (hs.calm _)
  | skipTurn disposed => exact (flushing List.mem_cons_self (.inr ⟨_, _, rfl⟩)).elim
  | beginTurn => exact (flushing List.mem_cons_self (.inr ⟨_, _, rfl⟩)).elim
  | endFlush done => exact absurd List.mem_cons_self (hs.calm _)

end Works

end Reactivity
