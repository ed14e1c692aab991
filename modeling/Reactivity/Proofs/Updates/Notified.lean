import Reactivity.Proofs.Updates.Order

/-!
The two ways in which a computation can stand to what it has read: it has been told of a change, or
it is registered on everything it has read and would read the same again.
-/

namespace Reactivity

def Frame.Owes (w : World) (n : NodeId) : Frame → Prop
  | .writing _ h keys => ∃ key ∈ keys, (key, n) ∈ w.readers h
  | .telling _ nodes => n ∈ nodes
  | .pending m => n = m
  | .round _ batch => n ∈ batch
  | _ => False

/-- `Notified w g n`: the node will run again before it counts as up to date, or never again. After
a disturbance nothing is said about effects. -/
inductive Notified (w : World) (g : List Frame) (n : NodeId) : Prop
  | disposed (h : w.isDisposed n)
  | dirty (h : w.isDirty n)
  | queued {rt : RuntimeId} (h : n ∈ w.queue rt)
  | owed {f : Frame} (mem : f ∈ g) (owes : f.Owes w n)
  | excused (effect : (w.effect? n).isSome) (disturbed : ¬ Undisturbed w.history)

/-- `Answers w n read r`: the node has registered itself on all that the read depends on, and the
read gives the same as `r`. -/
structure Answers (w : World) (n : NodeId) (read : Read) (r : Result) : Prop where
  valid : read.handle.Valid w
  tracked : ∀ key ∈ read.keys w, .tracked n read.handle key ∈ sinceStart n w.history
  shown : ∃ r', read.shown w = some r' ∧ r.same r'

/-- `Fresh w n`: the node is registered on all it has read since its function was last started, and
would read the same again. -/
structure Fresh (w : World) (n : NodeId) : Prop where
  registered : ∀ h key, .tracked n h key ∈ sinceStart n w.history → (key, n) ∈ w.readers h
  answers : ∀ read r, .saw n read r ∈ sinceStart n w.history → Answers w n read r

section Transfer

variable {w w' : World} {g g' : List Frame} {n : NodeId} {f : Frame}

theorem Frame.Owes.mono (hs : w.Spares n w') (h : f.Owes w n) : f.Owes w' n := by
  cases f with
  | writing rt x keys =>
    obtain ⟨key, hk, hr⟩ := h
    exact ⟨key, hk, hs.registered x key hr⟩
  | _ => exact h

/-- Who has been told stays told, as far as those that are owed a word are. -/
theorem Notified.mono (he : w.Extends w') (hs : w.Spares n w')
    (owed : ∀ f ∈ g, f.Owes w n → Notified w' g' n) (h : Notified w g n) : Notified w' g' n := by
  cases h with
  | disposed h => exact .disposed (hs.disposed h)
  | dirty h => exact .dirty (hs.dirty h)
  | queued h => exact .queued (hs.queued _ h)
  | owed mem owes => exact owed _ mem owes
  | excused effect disturbed =>
    exact .excused (he.isSome_effect? effect) fun hu => disturbed (hu.of_suffix he.history)

theorem Notified.mono_of_subset (he : w.Extends w') (hs : w.Spares n w') (hg : g ⊆ g')
    (h : Notified w g n) : Notified w' g' n :=
  h.mono he hs fun _ mem owes => .owed (hg mem) (owes.mono hs)

theorem Fresh.of_started (h : sinceStart n w.history = []) : Fresh w n where
  registered _ _ hm := by rw [h] at hm; cases hm
  answers _ _ hm := by rw [h] at hm; cases hm

theorem Fresh.mono (he : w.Extends w') (hs : w.Spares n w') (silent : w.Silent n w')
    (kept : ∀ read r, .saw n read r ∈ sinceStart n w.history → Answers w n read r →
      read.Kept w w') (h : Fresh w n) : Fresh w' n where
  registered x key hm := by
    have hm := (silent.mem_sinceStart (e := .tracked n x key) rfl).1 hm
    exact hs.registered x key (h.registered x key hm)
  answers read r hm := by
    have hm := (silent.mem_sinceStart (e := .saw n read r) rfl).1 hm
    have ha := h.answers read r hm
    have hk := kept read r hm ha
    refine ⟨ha.valid.mono he, fun key hkey => ?_, ?_⟩
    · refine (silent.mem_sinceStart (e := .tracked n read.handle key) rfl).2 ?_
      exact ha.tracked key (hk.keys ▸ hkey)
    · obtain ⟨r₁, hr₁, hs₁⟩ := ha.shown
      obtain ⟨r₂, hr₂, hs₂⟩ := hk.shown r₁ hr₁
      exact ⟨r₂, hr₂, Result.same_trans hs₁ hs₂⟩

theorem Fresh.mono_of_unnoticed (he : w.Extends w') (hu : w.Unnoticed w') (h : Fresh w n) :
    Fresh w' n :=
  h.mono he (hu.spares n) (hu.silent n) fun read _ _ ha => hu.kept read ha.valid

end Transfer

/-- `Registered w x m`: the node is registered on the memo, has been so since it was last started,
and the memo is clean. -/
structure Registered (w : World) (x m : NodeId) : Prop where
  tracked : .tracked x (.memo m) .value ∈ sinceStart x w.history
  reader : (.value, x) ∈ w.readers (.memo m)
  clean : w.IsClean m

/-- Every node has been told of a change or is up to date; so is whoever is reading a memo, as far
as that memo is concerned, and whoever has read a memo that is being computed anew has been told. -/
structure Config.Settled (c : Config) : Prop where
  nodes : ∀ n, Notified c.world c.stack n ∨ Fresh c.world n
  reading : ∀ x m, .reading (some x) m ∈ c.stack →
    Notified c.world c.stack x ∨ Registered c.world x m
  computing : ∀ m rt start, .computing m rt start ∈ c.stack → ∀ n r,
    .saw n (.memo m) r ∈ sinceStart n c.world.history → Notified c.world c.stack n

namespace Config.Settled

variable {w w' : World} {g g' : List Frame} {u u' : Bool}

theorem advance (h : Config.Settled ⟨w, g, u⟩) (told : ∀ n, Notified w g n → Notified w' g' n)
    (fresh : ∀ n, Fresh w n → Notified w' g' n ∨ Fresh w' n)
    (reading : ∀ x m, .reading (some x) m ∈ g' → .reading (some x) m ∈ g)
    (registered : ∀ x m, .reading (some x) m ∈ g → Registered w x m →
      Notified w' g' x ∨ Registered w' x m)
    (computing : ∀ m rt start, .computing m rt start ∈ g' → .computing m rt start ∈ g)
    (seen : ∀ m rt start, .computing m rt start ∈ g → ∀ n r,
      .saw n (.memo m) r ∈ sinceStart n w'.history →
        .saw n (.memo m) r ∈ sinceStart n w.history) :
    Config.Settled ⟨w', g', u'⟩ where
  nodes n := (h.nodes n).elim (fun hn => .inl (told n hn)) (fresh n)
  reading x m hm := by
    have hm := reading x m hm
    exact (h.reading x m hm).elim (fun hx => .inl (told x hx)) (registered x m hm)
  computing m rt start hm n r hs := by
    have hm := computing m rt start hm
    exact told n (h.computing m rt start hm n r (seen m rt start hm n r hs))

theorem of_unnoticed (h : Config.Settled ⟨w, g, u⟩) (he : w.Extends w') (hu : w.Unnoticed w')
    (owed : ∀ n, ∀ f ∈ g, f.Owes w n → Notified w' g' n)
    (reading : ∀ x m, .reading (some x) m ∈ g' → .reading (some x) m ∈ g)
    (computing : ∀ m rt start, .computing m rt start ∈ g' → .computing m rt start ∈ g) :
    Config.Settled ⟨w', g', u'⟩ := by
  refine h.advance (fun n hn => hn.mono he (hu.spares n) (owed n))
    (fun n hn => .inr (hn.mono_of_unnoticed he hu)) reading (fun x m _ hr => .inr ?_) computing
    fun m _ _ _ n r hs => ?_
  · obtain ⟨ht, hreader, hclean⟩ := hr
    refine ⟨?_, (hu.spares x).registered _ _ hreader, hu.clean m hclean⟩
    exact ((hu.silent x).mem_sinceStart (e := .tracked x (.memo m) .value) rfl).2 ht
  · exact ((hu.silent n).mem_sinceStart (e := .saw n (.memo m) r) rfl).1 hs

theorem same (h : Config.Settled ⟨w, g, u⟩) (he : w.Extends w') (hu : w.Unnoticed w') :
    Config.Settled ⟨w', g, u'⟩ :=
  h.of_unnoticed he hu (fun n _ hf ho => .owed hf (ho.mono (hu.spares n))) (fun _ _ => id)
    fun _ _ _ => id

end Config.Settled

end Reactivity
