import Reactivity.Proofs.Run.History

namespace Reactivity

/-- The function of a node has been started, and has not returned since. -/
def Open (n : NodeId) (history : List Event) : Prop :=
  .started n ∈ history ∧ .finished n ∉ sinceStart n history

section Open

variable {n : NodeId} {e : Event} {history new : List Event}

theorem open_started (n : NodeId) (history : List Event) : Open n (.started n :: history) :=
  ⟨List.mem_cons_self .., by simp⟩

theorem Open.cons (h : Open n history) (hf : e ≠ .finished n) : Open n (e :: history) := by
  by_cases he : e = .started n
  · subst he
    exact open_started n _
  · refine ⟨List.mem_cons_of_mem _ h.1, ?_⟩
    rw [sinceStart_cons he, List.mem_cons, not_or]
    exact ⟨hf.symm, h.2⟩

theorem Open.append (h : Open n history) (hf : .finished n ∉ new) : Open n (new ++ history) := by
  induction new with
  | nil => exact h
  | cons e new ih =>
    rw [List.mem_cons, not_or] at hf
    exact (ih hf.2).cons (Ne.symm hf.1)

end Open

def changesBegun (history : List Event) : Nat :=
  history.countP fun e => match e with
    | .changeBegan _ => true
    | _ => false

def changesEnded (history : List Event) : Nat :=
  history.countP fun e => match e with
    | .changeEnded _ => true
    | _ => false

/-- Nothing was thrown, every flush came to its end, and none was begun while an effect or a memo
was running. -/
structure Undisturbed (history : List Event) : Prop where
  threw : ∀ message, .threw message ∉ history
  gaveUp : ∀ rt, .gaveUp rt ∉ history
  flushes : ∀ rt old, .flushBegan rt :: old <:+ history → ∀ n, ¬ Open n old

theorem Undisturbed.of_suffix {history history' : List Event} (h : Undisturbed history')
    (hs : history <:+ history') : Undisturbed history where
  threw message hm := h.threw message (hs.subset hm)
  gaveUp rt hm := h.gaveUp rt (hs.subset hm)
  flushes rt old ho := h.flushes rt old (ho.trans hs)

/-- No runtime's hook flushes at once, bodies were not nested too deeply, no memo was read while it
was being computed, and no container was written while the change of an array as a whole was being
computed. -/
structure World.Regular (w : World) : Prop where
  hooks : ∀ rt, rt < w.runtimes.size → (w.runtime rt).hook ≠ .flush
  exhausted : .exhausted ∉ w.history
  memos : ∀ n, (w.memo? n).isSome → ∀ old,
    .started n :: old <:+ w.history ∨ .recalled n :: old <:+ w.history → ¬ Open n old
  changes : ∀ write : Write, write.changed ≠ [] → ∀ old, .wrote write :: old <:+ w.history →
    changesBegun old ≤ changesEnded old

theorem World.Regular.of_extends {w w' : World} (h : w'.Regular) (he : w.Extends w') :
    w.Regular where
  hooks rt hrt := by
    obtain ⟨hrt', -, hh⟩ := he.runtimes rt hrt
    exact hh ▸ h.hooks rt hrt'
  exhausted hm := h.exhausted (he.history.subset hm)
  memos n hn old ho :=
    h.memos n (he.isSome_memo? hn) old (ho.imp (·.trans he.history) (·.trans he.history))
  changes write hw old ho := h.changes write hw old (ho.trans he.history)

/-- All memos have pure bodies, and nothing was thrown while one of them was being computed. -/
structure World.MemosPure (w : World) : Prop where
  bodies : ∀ n m, w.memo? n = some m → m.body.body.isPure
  calm : ∀ message old, .threw message :: old <:+ w.history → ∀ n, (w.memo? n).isSome → ¬ Open n old

theorem World.MemosPure.of_extends {w w' : World} (h : w'.MemosPure) (he : w.Extends w') :
    w.MemosPure where
  bodies n m hm := by
    obtain ⟨m', hm', -, hbody⟩ := he.memos n m hm
    exact hbody ▸ h.bodies n m' hm'
  calm message old ho n hn := h.calm message old (ho.trans he.history) n (he.isSome_memo? hn)

end Reactivity
