import Reactivity.Proofs.Passes.Standing
import Reactivity.Proofs.Updates.Order

namespace Reactivity

/-- The event is not brought about by a computation that only reads: something is written or changed,
a memo is made dirty, the subscribers of a store are called, effects are run. -/
def Event.Intrudes (w : World) : Event → Prop
  | .wrote _ | .changeBegan _ | .dirtied _ | .passAsked _ | .delivered .. | .flushBegan _ => True
  | .started n => (w.effect? n).isSome
  | _ => False

/-- No hook flushes at once, nothing is thrown, and bodies are not nested too deeply; no memo is
computed while it is being computed, and the functions of memos only read. -/
structure World.Steady (w : World) : Prop where
  hooks : w.Unhurried
  threw : ∀ message, .threw message ∉ w.history
  exhausted : .exhausted ∉ w.history
  acyclic : ∀ n, (w.memo? n).isSome → ∀ old, .started n :: old <:+ w.history → ¬ Open n old
  reads : ∀ n, (w.memo? n).isSome → ∀ e old, e :: old <:+ w.history → Open n old →
    ¬ e.Intrudes w

theorem Event.Intrudes.mono {w w' : World} {e : Event} (h : e.Intrudes w) (he : w.Extends w') :
    e.Intrudes w' := by
  cases e with
  | started n => exact he.isSome_effect? h
  | _ => exact h

theorem World.Steady.of_extends {w w' : World} (h : w'.Steady) (he : w.Extends w') :
    w.Steady where
  hooks := h.hooks.of_extends he
  threw message hm := h.threw message (he.history.subset hm)
  exhausted hm := h.exhausted (he.history.subset hm)
  acyclic n hn old ho := h.acyclic n (he.isSome_memo? hn) old (ho.trans he.history)
  reads n hn e old ho hopen hi :=
    h.reads n (he.isSome_memo? hn) e old (ho.trans he.history) hopen (hi.mono he)

def computings : List Frame → List NodeId
  | [] => []
  | .computing n _ _ :: g => n :: computings g
  | _ :: g => computings g

theorem mem_computings {n : NodeId} {g : List Frame} :
    n ∈ computings g ↔ ∃ rt start, .computing n rt start ∈ g := by
  induction g with
  | nil => simp [computings]
  | cons f g ih => cases f <;> simp [computings, ih, exists_or]

def Frame.Reads : Frame → Prop
  | .computing .. | .reading .. => True
  | _ => False

theorem computings_cons {f : Frame} (hf : ¬ f.Reads) (g : List Frame) :
    computings (f :: g) = computings g := by
  cases f with
  | computing => exact absurd trivial hf
  | _ => rfl

/-- What a step brings about that a computation which only reads does not, it brings about while no
memo is being computed. -/
theorem World.Steady.outside {w w' : World} {g : List Frame} {u : Bool} {e : Event}
    {old : List Event} (ok : w'.Steady) (hc : Config.Sane ⟨w, g, u⟩) (hx : w.Extends w')
    (opened : ∀ n ∈ computings g, Open n w.history) (he : e.Intrudes w')
    (hs : e :: old <:+ w'.history) (ho : ∀ n, Open n w.history → Open n old) :
    computings g = [] := by
  refine List.eq_nil_iff_forall_not_mem.2 fun n hn => ?_
  obtain ⟨rt, start, hf⟩ := mem_computings.1 hn
  have hmemo := hx.isSome_memo? (hc.frames _ hf).2
  exact ok.reads n hmemo e old hs (ho n (opened n hn)) he

/-- The frame can stand on the others: on the computation of a memo stand only reads of memos and
their computations, and what does nothing by itself; and what reads a memo is running further out. -/
def Frame.NestsOn : Frame → List Frame → Prop
  | .computing .., _ | .created _, _ | .masked _, _ | .amid _, _ | .greeting .., _ => True
  | .reading reader _, g => ∀ x, reader = some x → x ∈ actives g
  | _, g => computings g = []

def Nested : List Frame → Prop
  | [] => True
  | f :: g => f.NestsOn g ∧ Nested g

theorem Nested.reader_mem_actives {g : List Frame} (h : Nested g) {x n : NodeId}
    (hm : .reading (some x) n ∈ g) :
    x ∈ actives g := by
  induction g with
  | nil => cases hm
  | cons f g ih =>
    rcases List.mem_cons.1 hm with rfl | hm
    · exact h.1 x rfl
    · have hx := ih h.2 hm
      cases f with
      | running | computing => exact List.mem_cons_of_mem _ hx
      | _ => exact hx

theorem Stacked.not_triggers {w : World} {f : Frame} {g : List Frame} (h : Stacked w (f :: g))
    (hf : ¬ f.Triggers) : ∀ f' ∈ f :: g, ¬ f'.Triggers := by
  have code {g : List Frame} (hg : OnCode w g) : ∀ f ∈ g.head?, ¬ f.Triggers := by
    intro f hf
    obtain _ | ⟨f', g⟩ := g
    · cases hf
    · obtain rfl := Option.some.inj hf
      have hg := hg.1
      cases f' <;> first | exact hg.elim | exact id
  have notified {store : StoreId} {g : List Frame} (hg : OnNotified w store g) :
      ∀ f ∈ g.head?, ¬ f.Triggers := by
    obtain ⟨rt, batch, s, rfl⟩ := hg
    exact fun _ hx => Option.some.inj hx ▸ id
  have passing {g : List Frame} (hg : AtPassing g) : ∀ f ∈ g.head?, ¬ f.Triggers := by
    obtain _ | ⟨f', g⟩ := g
    · exact hg.elim
    · cases f' with
      | passing => exact fun _ hx => Option.some.inj hx ▸ id
      | _ => exact hg.elim
  induction g generalizing f with
  | nil => exact fun f' hf' => List.mem_singleton.1 hf' ▸ hf
  | cons f₁ g ih =>
    obtain ⟨hs, hl⟩ := h
    have below : ∀ f' ∈ (f₁ :: g).head?, ¬ f'.Triggers := by
      cases f with
      | writing => exact absurd trivial hf
      | telling => exact absurd trivial hf
      | pending =>
        obtain ⟨rt, batch, s, he⟩ := hs
        exact he ▸ fun _ hx => Option.some.inj hx ▸ id
      | round =>
        obtain ⟨s, he⟩ := hs
        exact he ▸ fun _ hx => Option.some.inj hx ▸ id
      | running =>
        rcases hs with hs | ⟨batch, s, he⟩
        · exact code hs
        · exact he ▸ fun _ hx => Option.some.inj hx ▸ id
      | computing =>
        obtain ⟨reader, s, he⟩ := hs
        exact he ▸ fun _ hx => Option.some.inj hx ▸ id
      | watched | notified =>
        obtain ⟨rt, s, he⟩ := hs
        exact he ▸ fun _ hx => Option.some.inj hx ▸ id
      | amid =>
        rcases hs with hs | ⟨s, he⟩
        · exact code hs
        · exact he ▸ fun _ hx => Option.some.inj hx ▸ id
      | passing | passed => exact hs.elim code notified
      | calling => exact hs.elim code passing
      | reading | changing | masked | flushing | created | greeting => exact code hs
      | beyond => exact hs.elim
    intro f' hf'
    rcases List.mem_cons.1 hf' with rfl | hf'
    · exact hf
    · exact ih hl (below f₁ rfl) f' hf'

theorem Stacked.not_triggers_of_atCode {w : World} {g : List Frame} (h : Stacked w g)
    (hc : AtCode g) : ∀ f ∈ g, ¬ f.Triggers := by
  obtain _ | ⟨f, g⟩ := g
  · exact fun _ hf => nomatch hf
  · refine h.not_triggers ?_
    cases f <;> first | exact hc.elim | exact id

/-- A step begins nothing in the computation of a memo but to read another one. -/
theorem Step.nested {w w' : World} {g g' : List Frame} {u u' : Bool}
    (h : Step ⟨w, g, u⟩ ⟨w', g', u'⟩) (hc : Config.Sane ⟨w, g, u⟩) (ok : w'.Steady)
    (opened : ∀ n ∈ computings g, Open n w.history) (hg : Nested g) : Nested g' := by
  have hx := h.extends
  -- The step brings about an event that only happens while no memo is being computed.
  have outside {e : Event} (he : e.Intrudes w') (hs : e :: w.history <:+ w'.history) :
      computings g = [] := ok.outside hc hx opened he hs fun _ => id
  cases h with
  -- Nothing is begun or ended.
  | aside _ | track _ _ _ _ _ | see _ _ _ _ _ _ _ | newObject _ _ _ | newArray _ _ _
  | resolveObject _ _ | resolveArray _ _ | schedule _ _ _ _ _ _ | markDirty _ _ _ | newMemo _ _ _
  | addCleanup _ _ _ _ _ _ | retire _ _ | postpone _ _ _ | newRuntime _ | throw _ | exhaust _
  | resume => exact hg
  -- What stands on top is done, or becomes another thing.
  | abandonChange | written | told | endCompute _ _ _ | abandonCompute | endReading _ _
  | endCleaning | abandonCleaning _ | endReport | skipPending _ | clearRunning _ _ | endRun _ | abandonRun | unmask | settle _
  | forgo _ | endCall | endRound | endFlush _ | drop _ => exact hg.2
  | endWatch _ => exact hg.2.2
  | tellDisposed _ | tellQueued _ _ | tellEffect _ _ | tellDirty _ _ | prime _ _ | skipPass _ _ _
  | watchPostpone _ _ _ | passOver _ | endPass | endChange _ _ | takeUp _ _ _ | skipTurn _ =>
    exact ⟨hg.1, hg.2⟩
  -- Something is begun.
  | write _ _ _ edit =>
    exact ⟨outside (e := .wrote _) trivial ⟨[], edit.history.symm⟩, hg⟩
  | beginChange _ _ _ _ =>
    exact ⟨outside (e := .changeBegan _) trivial (List.suffix_refl _), hg⟩
  | markClean _ _ _ _ => exact ⟨outside (e := .dirtied _) trivial (List.suffix_refl _), hg⟩
  | beginPass _ _ _ _ => exact ⟨outside (e := .passAsked _) trivial (List.suffix_cons _ _), hg⟩
  | beginCall _ _ _ => exact ⟨(computings_cons id _).trans hg.1, hg.1, hg.2⟩
  | subscribe _ _ _ _ => exact ⟨trivial, trivial, hg⟩
  | greet _ _ => exact ⟨outside (e := .delivered _ _) trivial (List.suffix_refl _), hg.2⟩
  | beginFlush _ _ _ _ _ => exact ⟨outside (e := .flushBegan _) trivial (List.suffix_refl _), hg⟩
  | newEffect _ _ _ _ _ _ | newStore _ _ _ | mask _ _ _ | beginCleaning _ | beginWatch _ _
  | dispose _ _ _ _ => exact ⟨trivial, hg⟩
  | advance _ | keep _ _ _ => exact ⟨trivial, hg.2⟩
  | trigger | tellClean _ _ | beginRound _ | beginTurn _ =>
    exact ⟨(computings_cons id _).trans hg.1, hg.1, hg.2⟩
  | watched _ _ _ => exact ⟨(computings_cons id _).trans hg.1, hg⟩
  | watchPass _ _ _ _ => exact ⟨(computings_cons id _).trans hg.1, hg.1, hg.2⟩
  | reuse _ memo _ _ _ => exact ⟨hc.reader_mem_actives memo, hg⟩
  | beginCompute _ memo _ _ => exact ⟨trivial, hc.reader_mem_actives memo, hg⟩
  | @beginRun w g n rt f e effect _ _ turn _ =>
    have hf : computings (f :: g) = computings g := by
      rcases turn with ⟨rfl, -⟩ | ⟨rfl, -⟩ <;> rfl
    have heffect := hx.isSome_effect? (Option.isSome_of_eq_some effect)
    have hs : .started n :: .cleared n :: w.history <:+ (w.running n rt).history :=
      ⟨[], (w.history_running n rt).symm⟩
    have hempty := ok.outside hc hx opened (e := .started n) heffect hs fun m ho => ho.cons nofun
    exact ⟨hf.symm.trans hempty, hg.2⟩
  | giveUp _ frames =>
    rcases frames with rfl | ⟨rfl, -⟩
    · exact hg.2
    · exact hg

/-- Without a throw, and with bodies that are not nested too deeply, nothing is interrupted. -/
theorem Step.not_unwinding {w w' : World} {g g' : List Frame} {u' : Bool}
    (h : Step ⟨w, g, false⟩ ⟨w', g', u'⟩) (threw : ∀ message, .threw message ∉ w'.history)
    (exhausted : .exhausted ∉ w'.history) : u' = false := by
  cases h with
  | throw => exact absurd (List.mem_cons_self ..) (threw _)
  | exhaust => exact absurd (List.mem_cons_self ..) exhausted
  | _ => rfl

theorem Reaches.not_unwinding {settings : Settings} {hook : Hook} {c : Config}
    (h : Reaches (.start settings hook) c) (threw : ∀ message, .threw message ∉ c.world.history)
    (exhausted : .exhausted ∉ c.world.history) : c.unwinding = false := by
  induction h with
  | refl => rfl
  | @tail c c' steps step ih =>
    obtain ⟨w, g, u⟩ := c
    have hx : w.history <:+ c'.world.history := step.extends.history
    obtain rfl : u = false := ih (fun m hm => threw m (hx.subset hm)) fun hm =>
      exhausted (hx.subset hm)
    exact step.not_unwinding threw exhausted

theorem Reaches.stacked {settings : Settings} {hook : Hook} {c : Config}
    (h : Reaches (.start settings hook) c) (hw : c.world.Unhurried) : Stacked c.world c.stack :=
  h.standing.1.stacked hw (h.sane (Config.start_sane settings hook)).frames

end Reactivity
