import Reactivity.Proofs.Passes.Seating

namespace Reactivity

def Frame.StandsOn (w : World) : Frame → List Frame → Prop
  | .writing rt _ _, g => OnCode w g ∨ ∃ nodes s, g = .telling rt nodes :: s
  | .telling rt _, g =>
    OnCode w g ∨
      (∃ id, id < w.stores.size ∧ rt = (w.store id).runtime ∧ OnNotified w id g) ∨
        ∃ h keys s, g = .writing rt h keys :: s
  | .pending _, g => ∃ rt batch s, g = .round rt batch :: s
  | .round rt _, g => ∃ s, g = .flushing rt :: s
  | .running _ rt, g => OnCode w g ∨ ∃ batch s, g = .round rt batch :: s
  | .computing n _ _, g => ∃ reader s, g = .reading reader n :: s
  | .watched n, g | .notified n, g => ∃ rt s, g = .running n rt :: s
  | .amid (.cleaning n ..), g | .amid (.cleanup n ..), g => OnCode w g ∨ ∃ s, g = .pending n :: s
  | .amid (.getting n _), g | .amid (.reporting n _), g | .amid (.calling n ..), g =>
    OnCode w g ∧ ∃ rt s, g = .running n rt :: s
  | .passing id rt _, g => OnCode w g ∨ rt = (w.store id).runtime ∧ OnNotified w id g
  | .passed id, g => OnCode w g ∨ OnNotified w id g
  | .calling _, g => OnCode w g ∨ AtPassing g
  | .flushing rt, g =>
    OnCode w g ∨ (w.runtime rt).hook = .flush ∧ ∃ nodes s, g = .telling rt nodes :: s
  | .beyond, _ => False
  | .reading .., g | .changing .., g | .masked _, g | .created _, g | .greeting .., g => OnCode w g

def Standing (w : World) : List Frame → Prop
  | [] => True
  | f :: g => f.StandsOn w g ∧ Standing w g

section Extends

variable {w w' : World} {f : Frame} {g : List Frame} (he : w.Extends w')
include he

theorem Frame.StandsOn.mono (hf : f.Valid w) (hv : ∀ f ∈ g, f.Valid w) (h : f.StandsOn w g) :
    f.StandsOn w' g := by
  have code (h : OnCode w g) : OnCode w' g := h.mono he hv
  cases f with
  | writing | running | calling => exact h.imp_left code
  | telling =>
    refine h.imp code (.imp_left ?_)
    rintro ⟨id, hid, rfl, hn⟩
    obtain ⟨hid', hr, -, -⟩ := he.stores id hid
    exact ⟨id, hid', hr.symm, hn.mono he hid⟩
  | amid s =>
    cases s with
    | cleaning | cleanup => exact h.imp_left code
    | getting | reporting | calling => exact h.imp_left code
  | passing =>
    refine h.imp code ?_
    rintro ⟨rfl, hn⟩
    exact ⟨(he.stores _ hf.1).2.1.symm, hn.mono he hf.1⟩
  | passed => exact h.imp code (·.mono he hf)
  | flushing rt =>
    refine h.imp code (.imp_left fun hook => ?_)
    rw [(he.runtimes rt hf).2.2]
    exact hook
  | reading | changing | masked | created | greeting => exact code h
  | beyond => exact h.elim
  | pending | round | computing | watched | notified => exact h

theorem Standing.mono (hv : ∀ f ∈ g, f.Valid w) (h : Standing w g) : Standing w' g := by
  induction g with
  | nil => trivial
  | cons f g ih =>
    have hg : ∀ f ∈ g, f.Valid w := fun f hf => hv f (List.mem_cons_of_mem _ hf)
    exact ⟨h.1.mono he (hv f List.mem_cons_self) hg, ih hg h.2⟩

end Extends

theorem Frame.StandsOn.midCall {w : World} {f : Frame} {g : List Frame} (h : f.StandsOn w g) :
    MidCall g := by
  rintro s g' rfl
  have code (h : OnCode w (.amid s :: g')) : s.isCode := h.1
  cases f with
  | writing =>
    rcases h with h | ⟨_, _, h⟩
    · exact code h
    · cases h
  | telling =>
    rcases h with h | ⟨_, -, -, _, _, _, h⟩ | ⟨_, _, _, h⟩
    · exact code h
    · cases h
    · cases h
  | pending =>
    obtain ⟨_, _, _, h⟩ := h
    cases h
  | round =>
    obtain ⟨_, h⟩ := h
    cases h
  | computing | watched | notified =>
    obtain ⟨_, _, h⟩ := h
    cases h
  | running =>
    rcases h with h | ⟨_, _, h⟩
    · exact code h
    · cases h
  | amid s =>
    cases s with
    | cleaning | cleanup =>
      rcases h with h | ⟨_, h⟩
      · exact code h
      · cases h
    | getting | reporting | calling => exact code h.1
  | passing =>
    rcases h with h | ⟨-, _, _, _, h⟩
    · exact code h
    · cases h
  | passed =>
    rcases h with h | ⟨_, _, _, h⟩
    · exact code h
    · cases h
  | calling =>
    rcases h with h | h
    · exact code h
    · exact h.elim
  | flushing =>
    rcases h with h | ⟨-, _, _, h⟩
    · exact code h
    · cases h
  | beyond => exact h.elim
  | reading | changing | masked | created | greeting => exact code h

theorem Stage.Advance.standsOn {s s' : Stage} {e : Event} (h : s.Advance e s') {w : World}
    {g : List Frame} (stands : (Frame.amid s).StandsOn w g) : (Frame.amid s').StandsOn w g := by
  cases h <;> exact stands

theorem Step.standing {w w' : World} {g g' : List Frame} {u u' : Bool}
    (h : Step ⟨w, g, u⟩ ⟨w', g', u'⟩) (hc : Config.Sane ⟨w, g, u⟩) (hl : w.Linked)
    (hs : Standing w g) : Standing w' g' := by
  have he : w.Extends w' := h.extends
  have hs' : Standing w' g := hs.mono he hc.frames
  have onCode (h : OnCode w g) : OnCode w' g := h.mono he hc.frames
  cases h with
  -- Nothing is begun or ended.
  | aside _ | track _ _ _ _ _ | see _ _ _ _ _ _ _ | newObject _ _ _ | newArray _ _ _
  | resolveObject _ _ | resolveArray _ _ | tellDisposed _ | tellQueued _ _ | tellEffect _ _
  | tellDirty _ _ | schedule _ _ _ _ _ _ | markDirty _ _ _ | newMemo _ _ _
  | addCleanup _ _ _ _ _ _ | keep _ _ _ | prime _ _ | skipPass _ _ _ | watchPostpone _ _ _
  | retire _ | postpone _ _ _ | newRuntime _ | skipTurn _ | throw _ | exhaust _
  | resume | passOver _ => exact hs'
  | advance h => exact ⟨h.standsOn hs'.1, hs'.2⟩
  -- What stands on top is done.
  | abandonChange | written | told | endCompute _ _ _ | abandonCompute | endReading _ _
  | endCleaning | abandonCleaning _ | skipPending _ | clearRunning _ _ | endRun _ | abandonRun
  | endReport | unmask | settle _
  | forgo _ | endCall | endRound | endFlush _ | drop _ => exact hs'.2
  | endPass => exact ⟨hs'.1.imp_right And.right, hs'.2⟩
  | endWatch _ => exact hs'.2.2
  -- Something is begun.
  | write code free _ _ => exact ⟨.inl (onCode (code.onCode free)), hs'⟩
  | beginChange code free _ _ => exact ⟨onCode (code.onCode free), hs'⟩
  | endChange _ _ => exact ⟨.inl hs'.1, hs'.2⟩
  | trigger => exact ⟨.inr (.inr ⟨_, _, _, rfl⟩), hs'⟩
  | tellClean _ _ => exact ⟨.inr ⟨_, _, rfl⟩, hs'⟩
  | markClean code free _ _ => exact ⟨.inl (onCode (code.onCode free)), hs'⟩
  | reuse code _ _ _ computed => exact ⟨onCode ⟨code, computed⟩, hs'⟩
  | beginCompute code _ _ computed => exact ⟨⟨_, _, rfl⟩, onCode ⟨code, computed⟩, hs'⟩
  | newEffect code free _ _ _ => exact ⟨onCode (code.onCode free), hs'⟩
  | newStore code free _ => exact ⟨onCode (code.onCode free), hs'⟩
  | beginCleaning _ => exact ⟨.inr ⟨_, rfl⟩, hs'⟩
  | dispose code _ _ free => exact ⟨.inl (onCode (code.onCode free)), hs'⟩
  | beginWatch _ other => exact ⟨⟨onCode (AtCode.onCode trivial other), _, _, rfl⟩, hs'⟩
  | beginRun _ _ _ turn =>
    rcases turn with ⟨rfl, batch, s, rfl⟩ | ⟨rfl, -⟩
    · exact ⟨.inr ⟨batch, s, rfl⟩, hs'.2⟩
    · exact ⟨.inl hs'.1, hs'.2⟩
  | watched _ _ _ => exact ⟨⟨_, _, rfl⟩, hs'⟩
  | watchPass effect job valid _ =>
    obtain ⟨-, rfl⟩ := hl.store _ _ _ _ effect job
    exact ⟨.inr ⟨(he.stores _ valid).2.1.symm, OnNotified.mono he valid ⟨_, _, _, rfl⟩⟩, hs'⟩
  | mask code free _ => exact ⟨onCode (code.onCode free), hs'⟩
  | beginPass code free _ _ => exact ⟨.inl (onCode (code.onCode free)), hs'⟩
  | @takeUp w g id e _ effect _ =>
    have hid : id < w.stores.size := hc.frames _ List.mem_cons_self
    obtain ⟨e', -, he', -, hr⟩ := hl.watcher id hid
    obtain rfl : e' = e := Option.some.inj (he'.symm.trans effect)
    obtain ⟨hid', hr', -⟩ := he.stores id hid
    exact ⟨hs'.1.imp_right fun hn => .inl ⟨id, hid', hr.trans hr'.symm, hn⟩, hs'.2⟩
  | beginCall _ _ _ => exact ⟨.inr trivial, hs'⟩
  | subscribe code free _ _ => exact ⟨⟨trivial, by simp⟩, onCode (code.onCode free), hs'⟩
  | greet _ _ => exact ⟨.inl hs'.1, hs'.2⟩
  | @beginFlush w g rt code free valid _ own =>
    refine ⟨code.imp (fun hg => onCode (hg.onCode (free hg))) fun ⟨telling, hook⟩ => ?_, hs'⟩
    refine ⟨((he.runtimes rt valid).2.2).trans hook, ?_⟩
    obtain _ | ⟨f, s⟩ := g
    · exact telling.elim
    · cases f with
      | telling rt' nodes => exact ⟨nodes, s, by rw [own rt' nodes s rfl]⟩
      | _ => exact telling.elim
  | beginRound _ => exact ⟨⟨_, rfl⟩, hs'⟩
  | giveUp _ frames =>
    rcases frames with rfl | ⟨rfl, -⟩
    · exact hs'.2
    · exact hs'
  | beginTurn _ => exact ⟨⟨_, _, _, rfl⟩, hs'⟩

/-- An interrupt does not come to the library where it is between two calls. -/
theorem Step.midCall {w w' : World} {g g' : List Frame} {u u' : Bool}
    (h : Step ⟨w, g, u⟩ ⟨w', g', u'⟩) (hs : Standing w g) (hu : u = true → MidCall g) :
    u' = true → MidCall g' := by
  -- What stands on top is given up.
  have pop {f : Frame} {g : List Frame} (hs : Standing w (f :: g)) : true = true → MidCall g :=
    fun _ => hs.1.midCall
  cases h with
  | aside _ | retire _ => exact hu
  | throw code => exact fun _ => code.midCall
  | exhaust call => exact fun _ => call
  | abandonChange | abandonCompute | abandonCleaning _ | abandonRun | drop _ => exact pop hs
  | unmask | endCall | endFlush _ => exact fun _ => pop hs rfl
  | endPass | passOver _ => exact fun _ s g' hg => nomatch hg
  | _ => exact nofun

theorem Reaches.standing {settings : Settings} {hook : Hook} {c : Config}
    (h : Reaches (.start settings hook) c) :
    Standing c.world c.stack ∧ (c.unwinding = true → MidCall c.stack) := by
  induction h with
  | refl => exact ⟨trivial, nofun⟩
  | tail steps step ih =>
    exact ⟨step.standing (steps.sane (Config.start_sane settings hook)) steps.linked ih.1,
      step.midCall ih.1 ih.2⟩

/-- If no hook flushes at once, no flush stands on what is being told of a change. -/
theorem Standing.stacked {w : World} {g : List Frame} (h : Standing w g) (hw : w.Unhurried)
    (hv : ∀ f ∈ g, f.Valid w) : Stacked w g := by
  induction g with
  | nil => trivial
  | cons f g ih =>
    refine ⟨?_, ih h.2 fun f hf => hv f (List.mem_cons_of_mem _ hf)⟩
    have hs := h.1
    have hf := hv f List.mem_cons_self
    cases f with
    | writing rt => exact hs.imp_right fun ⟨nodes, s, hg⟩ => ⟨rt, nodes, s, hg⟩
    | telling rt =>
      refine hs.imp_right (.imp ?_ fun ⟨h, keys, s, hg⟩ => ⟨rt, h, keys, s, hg⟩)
      rintro ⟨id, hid, -, hn⟩
      exact ⟨id, hid, hn⟩
    | amid s =>
      cases s with
      | cleaning | cleanup => exact hs
      | getting | reporting | calling => exact .inl hs.1
    | passing => exact hs.imp_right And.right
    | flushing rt => exact hs.resolve_right fun hook => hw rt hf hook.1
    | _ => exact hs

end Reactivity
