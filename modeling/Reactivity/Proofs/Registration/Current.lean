import Reactivity.Proofs.Passes.Standing
import Reactivity.Proofs.Registration.Separation

namespace Reactivity

/-- The frame is one of those that the library adds in the run of a watcher of the runtime, before
it comes to the program's own code. -/
def Frame.IsOver (w : World) (n : NodeId) (rt : RuntimeId) : Frame → Prop
  | .running m rt' => m = n ∧ rt' = rt
  | .watched m | .notified m => m = n
  | .writing rt' .. | .telling rt' _ | .flushing rt' | .round rt' _ => rt' = rt
  | .pending m => w.MadeBy rt m
  | .passed _ => True
  | _ => False

section Watchers

variable {w : World} {n : NodeId} {rt : RuntimeId} {f f' : Frame} {g : List Frame}

theorem Frame.IsOver.not_onCode (hw : w.isWatcher n) (h : f.IsOver w n rt) :
    ¬ OnCode w (f :: g) := by
  rintro ⟨hcode, hfree⟩
  cases f with
  | running m rt' =>
    obtain ⟨rfl, rfl⟩ := h
    rw [hfree _ _ _ rfl] at hw
    cases hw
  | computing | reading | changing | masked | created | amid | passing | calling | beyond => exact h
  | _ => exact hcode

theorem OnNotified.runtime_eq {id : StoreId} (hl : w.Linked) (hid : id < w.stores.size)
    (hn : w.MadeBy rt n) (hover : f'.IsOver w n rt) (h : OnNotified w id (f' :: g)) :
    (w.store id).runtime = rt := by
  obtain ⟨rt₀, batch, s, hg⟩ := h
  obtain ⟨rfl, -⟩ := List.cons.inj hg
  obtain ⟨e, primed, he, -, hr⟩ := hl.watcher id hid
  obtain rfl : (w.store id).watcher = n := hover
  exact World.MadeBy.unique (.inl ⟨e, he, hr⟩) hn

/-- What stands on such a frame is such a frame, unless it has to do with what the runtime
attributes reads to. -/
theorem Frame.IsOver.step (hl : w.Linked) (hw : w.isWatcher n) (hn : w.MadeBy rt n)
    (hover : f'.IsOver w n rt) (stands : f.StandsOn w (f' :: g)) (valid : f.Valid w)
    (home : f.AtHome w) (turns : TurnsAtHome w (f :: f' :: g)) (silent : f.context? rt = none) :
    f.IsOver w n rt := by
  have code (h : OnCode w (f' :: g)) : False := hover.not_onCode hw h
  cases f with
  | writing =>
    obtain ⟨_, _, h⟩ := stands.resolve_left code
    obtain ⟨rfl, -⟩ := List.cons.inj h
    exact hover
  | telling =>
    rcases stands.resolve_left code with ⟨id, hid, rfl, h⟩ | ⟨_, _, _, h⟩
    · exact h.runtime_eq hl hid hn hover
    · obtain ⟨rfl, -⟩ := List.cons.inj h
      exact hover
  | pending m =>
    obtain ⟨rt', batch, s, h⟩ := stands
    have hm := turns.1 m rt' batch s rfl h
    obtain ⟨rfl, -⟩ := List.cons.inj h
    obtain rfl : rt' = rt := hover
    exact hm
  | round =>
    obtain ⟨_, h⟩ := stands
    obtain ⟨rfl, -⟩ := List.cons.inj h
    exact hover
  | running m rt' =>
    obtain ⟨batch, s, h⟩ := stands.resolve_left code
    obtain ⟨rfl, -⟩ := List.cons.inj h
    obtain rfl : rt' = rt := hover
    rw [Frame.context?, if_pos rfl] at silent
    cases silent
  | computing =>
    obtain ⟨_, _, h⟩ := stands
    obtain ⟨rfl, -⟩ := List.cons.inj h
    exact hover
  | watched | notified =>
    obtain ⟨_, _, h⟩ := stands
    obtain ⟨rfl, -⟩ := List.cons.inj h
    exact hover.1
  | amid s =>
    -- Cleanups are called for an effect of the runtime, which then attributes reads to nobody.
    have cleaning {m : NodeId} {rt' : RuntimeId} (hs : s.mask? = some rt') (hm : s.node = m)
        (h : ∃ s, f' :: g = .pending m :: s) : (Frame.amid s).IsOver w n rt := by
      obtain ⟨s', h⟩ := h
      obtain ⟨rfl, -⟩ := List.cons.inj h
      have hrt : w.MadeBy rt' m := hm ▸ home rt' hs
      obtain rfl := hrt.unique hover
      rw [Frame.context?, if_pos hs] at silent
      cases silent
    cases s with
    | cleaning => exact cleaning rfl rfl (stands.resolve_left code)
    | cleanup => exact cleaning rfl rfl (stands.resolve_left code)
    | getting | reporting | calling => exact code stands.1
  | passing id rt' =>
    obtain ⟨rfl, h⟩ := stands.resolve_left code
    rw [Frame.context?, if_pos (h.runtime_eq hl valid.1 hn hover)] at silent
    cases silent
  | passed => trivial
  | calling =>
    have hpassing : AtPassing (f' :: g) := stands.resolve_left code
    cases f' <;> first | exact hover | exact hpassing.elim
  | flushing =>
    obtain ⟨-, _, _, h⟩ := stands.resolve_left code
    obtain ⟨rfl, -⟩ := List.cons.inj h
    exact hover
  | beyond => exact stands
  | reading | changing | masked | created | greeting => exact code stands

end Watchers

/-- What is current in a runtime stands on top of the stack, apart from frames that have nothing to
do with the runtime. -/
theorem Config.Sane.exists_current {w : World} {g : List Frame} {u : Bool}
    (hs : Config.Sane ⟨w, g, u⟩) {rt : RuntimeId} {n : NodeId} (hn : w.currentReader rt = some n) :
    ∃ (above : List Frame) (f : Frame) (below : List Frame), g = above ++ f :: below ∧
      (f = .running n rt ∨ ∃ start, f = .computing n rt start) ∧
        ∀ f ∈ above, f.context? rt = none := by
  have hhead : (w.context rt).head? = some (some n) := Option.join_eq_some_iff.1 hn
  have hrt : rt < w.runtimes.size := by
    by_contra hrt
    rw [World.context, World.runtime, Array.getElem?_eq_none (Nat.le_of_not_lt hrt)] at hhead
    cases hhead
  have hcontext : w.context rt = contextOf rt g := hs.context rt hrt
  rw [hcontext, contextOf_eq_filterMap, List.head?_filterMap] at hhead
  obtain ⟨above, f, below, rfl, hf, habove⟩ := List.findSome?_eq_some_iff.1 hhead
  exact ⟨above, f, below, rfl, Frame.context?_eq_some.1 hf, habove⟩

/-- The program's own code does not run where reads are attributed to the watcher of a store. -/
theorem Standing.isWatcher_eq_false {w : World} {g : List Frame} {u : Bool} (h : Standing w g)
    (hs : Config.Sane ⟨w, g, u⟩) (hc : Config.Separate ⟨w, g, u⟩) (hl : w.Linked)
    (code : OnCode w g) {rt : RuntimeId} {n : NodeId} (hn : w.currentReader rt = some n) :
    w.isWatcher n = false := by
  by_contra hw
  rw [Bool.not_eq_false] at hw
  have hmade : w.MadeBy rt n := hc.madeBy_of_currentReader hs hn
  obtain ⟨above, f, below, rfl, hf, habove⟩ := hs.exists_current hn
  rcases hf with rfl | ⟨start, rfl⟩
  · have hvalid : ∀ f ∈ above ++ .running n rt :: below, f.Valid w := hs.frames
    have hhome : ∀ f ∈ above ++ .running n rt :: below, f.AtHome w := hc.frames
    have hturns : TurnsAtHome w (above ++ .running n rt :: below) := hc.turns
    have top : ∃ f s, above ++ .running n rt :: below = f :: s ∧ f.IsOver w n rt := by
      clear code hs hc hn
      induction above with
      | nil => exact ⟨_, _, rfl, rfl, rfl⟩
      | cons f above ih =>
        obtain ⟨f', s, hg, hover⟩ := ih (fun f hf => habove f (List.mem_cons_of_mem _ hf)) h.2
          (fun f hf => hvalid f (List.mem_cons_of_mem _ hf))
          (fun f hf => hhome f (List.mem_cons_of_mem _ hf)) hturns.2
        rw [List.cons_append, hg] at h hturns hvalid hhome
        exact ⟨f, _, rfl, hover.step hl hw hmade h.1 (hvalid f List.mem_cons_self)
          (hhome f List.mem_cons_self) hturns (habove f List.mem_cons_self)⟩
    obtain ⟨f, s, hg, hover⟩ := top
    rw [hg] at code
    exact hover.not_onCode hw code
  · have hm : (w.memo? n).isSome := (hs.frames (.computing n rt start) (by simp)).2
    have he : (w.effect? n).isSome := by
      rw [World.isWatcher] at hw
      exact Option.isSome_of_any hw
    rw [World.memo?_eq_none_of_effect? he] at hm
    cases hm

end Reactivity
