import Reactivity.Proofs.Reruns.Bursts
import Reactivity.Proofs.Registration.Dropping

namespace Reactivity

theorem mem_waiting_of_append {rt : RuntimeId} {n : NodeId} {new old : List Event}
    (h : n ∈ waiting rt (new ++ old)) : .queued rt n ∈ new ∨ n ∈ waiting rt old := by
  induction new with
  | nil => exact .inr h
  | cons e new ih =>
    have later (h : n ∈ waiting rt (new ++ old)) : .queued rt n ∈ e :: new ∨ n ∈ waiting rt old :=
      (ih h).imp_left (List.mem_cons_of_mem _)
    -- A round, or a flush that is given up, leaves nobody waiting.
    have emptied (rt' : RuntimeId)
        (h : n ∈ if rt' = rt then ([] : List NodeId) else waiting rt (new ++ old)) :
        .queued rt n ∈ e :: new ∨ n ∈ waiting rt old := by
      split at h
      · cases h
      · exact later h
    cases e with
    | queued rt' m =>
      change n ∈ (if rt' = rt then waiting rt (new ++ old) ++ [m] else _) at h
      split at h
      · next hrt =>
        rcases List.mem_append.1 h with h | h
        · exact later h
        · exact .inl (by simp [hrt, List.mem_singleton.1 h])
      · exact later h
    | roundBegan rt' batch => exact emptied rt' h
    | gaveUp rt' => exact emptied rt' h
    | _ => exact later h

section Burst

variable {settings : Settings} {hook : Hook} {w₀ w : World} {c : Config} {past burst : List Event}

theorem Reaches.stirred (h₀ : Reaches (.start settings hook) ⟨w₀, [], false⟩)
    (h : Reaches ⟨w₀, [], false⟩ c) (ok : c.world.Observing)
    (plain : ∀ new, c.world.history = new ++ w₀.history → ∀ e ∈ new, ¬ e.Demands) :
    ∃ burst, Stirred w₀.history burst c.world.history c.stack := by
  induction h with
  | refl =>
    refine ⟨[], rfl, nofun, nofun, nofun, nofun, ?_, ?_, nofun, fun n m _ hm => absurd hm (by simp)⟩
    · rintro h key ⟨rt, keys, hf, -⟩
      cases hf
    · rintro n ⟨rt, ns, hf, -⟩
      cases hf
  | @tail c c' steps step ih =>
    obtain ⟨w, g, u⟩ := c
    obtain ⟨w', g', u'⟩ := c'
    have ok' := ok.of_extends step.extends
    have hreach : Reaches (.start settings hook) ⟨w, g, u⟩ := h₀.trans steps
    obtain ⟨added, hadded⟩ := step.extends.history
    obtain ⟨burst, hs⟩ := ih ok' fun new hn e he =>
      plain (added ++ new) (by rw [List.append_assoc, ← hn]; exact hadded.symm) e
        (List.mem_append_right _ he)
    obtain rfl : u = false := (hreach.aloof ok').1
    obtain rfl : u' = false := step.not_unwinding ok.steady.threw ok.steady.exhausted
    obtain ⟨new, past, hs'⟩ := (step.works (hreach.sane (Config.start_sane settings hook))).stirred
      hreach ok step.extends (fun new past e he => plain (new ++ burst)
        (by rw [List.append_assoc, ← hs.whole, past]) e (List.mem_append_left _ he)) hs
    exact ⟨_, past ▸ hs'⟩

theorem mem_of_mem_sinceTriggered_append {h : Handle} {key : Key} {e : Event} {new old : List Event}
    (he : e ∈ sinceTriggered h key (new ++ old)) (ht : .triggered h key ∈ new) : e ∈ new := by
  induction new with
  | nil => cases ht
  | cons x new ih =>
    by_cases hx : x = .triggered h key
    · rw [hx, List.cons_append, sinceTriggered_self] at he
      cases he
    · rw [List.cons_append, sinceTriggered_cons hx] at he
      refine (List.mem_cons.1 he).elim (fun he => he ▸ List.mem_cons_self) fun he => ?_
      exact List.mem_cons_of_mem _ (ih he ((List.mem_cons.1 ht).resolve_left (Ne.symm hx)))

/-- Nothing that the latest run of a node depends on was triggered, if the node is still registered on
all that it has read. -/
theorem DependsOn.not_triggered {n : NodeId} {h : Handle} {key : Key} (depends : DependsOn past n h key)
    (hreach : Reaches (.start settings hook) ⟨w, [], false⟩) (ok : w.Observing)
    (hs : Stirred past burst w.history []) (unstarted : .started n ∉ burst)
    (hears : ∀ h key, .tracked n h key ∈ sinceStart n past → (key, n) ∈ w.readers h) :
    .triggered h key ∉ burst := by
  induction depends with
  | @direct n h key read =>
    intro ht
    have read := hreach.mirrored.untriggered h key n (hears h key read)
    rw [hs.whole] at read
    exact unstarted (hs.tracked n h key (mem_of_mem_sinceTriggered_append read ht))
  | @through n m h key read depends ih =>
    have registered := hears (.memo m) .value read
    have clean : w.IsClean m := by
      have memo : (w.memo? m).isSome := World.valid_of_mem_readers registered
      obtain ⟨x, hx⟩ := Option.isSome_iff_exists.1 memo
      refine (Config.Reckoned.isClean_or_isDirty hx).resolve_right fun dirty => ?_
      rw [hreach.dirtyUnread (.inl trivial) ok.steady.exhausted m dirty] at registered
      cases registered
    have started : .started m ∉ burst := fun hm =>
      unstarted (hs.renewed n m ((hreach.enlisted.enrolled n _ _).1 registered) hm)
    refine ih started fun h key ht => ?_
    refine (hreach.attached ok.steady.hooks ok.steady.exhausted m clean h key ?_).resolve_right ?_
    · exact hs.whole ▸ mem_sinceStart_append started ht
    · exact And.right

/-- After a burst of writes and reads that follows a flush, those effects are queued whose latest run
depends on what has changed. -/
theorem Reaches.mem_queue_iff_woken (h₀ : Reaches (.start settings hook) ⟨w₀, [], false⟩)
    {old : List Event} (ended : w₀.history = .flushEnded 0 :: old)
    (h : Reaches ⟨w₀, [], false⟩ ⟨w, [], false⟩) (hburst : w.history = burst ++ w₀.history)
    (plain : ∀ e ∈ burst, ¬ e.Demands) (ok : w.Observing) (one : w.runtimes.size = 1) {n : NodeId}
    (effect : (w.effect? n).isSome) (live : w.isDisposed n = false) (unstarted : .started n ∉ burst) :
    n ∈ w.queue 0 ↔ Woken w₀.history burst n := by
  have hreach := h₀.trans h
  have served : Served w [] := hreach.served ok
  have attentive := hreach.attentive ok.steady.exhausted
  obtain ⟨burst', hs⟩ := h₀.stirred h ok fun new hnew e he => plain e <| by
    rwa [List.append_cancel_right (hburst.symm.trans hnew)]
  obtain rfl : burst = burst' := List.append_cancel_right (hburst.symm.trans hs.whole)
  constructor
  · intro hn
    rw [← attentive.queues 0, hburst] at hn
    rcases mem_waiting_of_append hn with hn | hn
    · exact (hs.queued 0 n hn).resolve_left unstarted
    · have hw : waiting 0 old = [] := (served.ended 0 old ⟨burst, by rw [hburst, ended]⟩).1
      rw [ended] at hn
      change n ∈ waiting 0 old at hn
      rw [hw] at hn
      cases hn
  · rintro ⟨write, hwrite, key, hkey, depends⟩
    by_contra hn
    have triggered : .triggered write.handle key ∈ burst := by
      refine (hs.triggered write hwrite key hkey).resolve_right ?_
      rintro ⟨rt, keys, hf, -⟩
      cases hf
    refine depends.not_triggered hreach ok hs unstarted (fun h key ht => ?_) triggered
    have memo := World.memo?_eq_none_of_effect? effect
    have cleared : .cleared n ∉ sinceStart n w.history := fun hc => by
      rw [served.cleared n memo hc] at live
      cases live
    have disposed {P : Prop} (hd : w.isDisposed n) : P := by
      rw [hd] at live
      cases live
    have unqueued (rt : RuntimeId) : n ∉ w.queue rt := by
      intro hq
      obtain rfl : rt = 0 := by
        by_contra hrt
        have hsize : w.runtimes.size ≤ rt := one ▸ Nat.one_le_iff_ne_zero.2 hrt
        rw [World.queue, World.runtime, Array.getElem?_eq_none hsize] at hq
        cases hq
      exact hn hq
    have read : .tracked n h key ∈ sinceStart n w.history := hburst ▸ mem_sinceStart_append unstarted ht
    rcases (attentive.accounts n live memo cleared h key read).resolve_right fun ha => ha.2.1 with
      (registered | ⟨rt, hq⟩) | ⟨rt, hdue⟩ | ⟨new, old', rt, -, ⟨hg, -⟩ | ⟨hg, hdue⟩⟩ | ⟨-, rt, -, hhook, -⟩
    · exact registered
    · exact absurd hq (unqueued rt)
    · rcases served.due rt n hdue with hd | hp | ⟨batch, hr, -⟩
      · exact disposed hd
      · cases hp
      · cases hr
    · refine absurd ?_ (served.kept rt)
      change w.history = _ at hg
      simp [hg]
    · exact disposed ((served.ended rt old' ⟨new, hg.symm⟩).2 n hdue)
    · exact absurd hhook (ok.steady.hooks rt (World.lt_of_hook hhook))

end Burst

end Reactivity
