import Reactivity.Proofs.Isolation.Steps

namespace Reactivity.Template

theorem frameStep_pass {fs fs' : List Frame} {b : UInt8} {next : Option UInt8} {n : Nat}
    (h : frameStep fs b next = .pass n fs') : n = 1 ∨ n = 2 ∧ next.isSome := by
  cases fs with
  | nil => cases h
  | cons f st =>
    cases f with
    | code k d => cases d <;> cases st <;> grind [frameStep]
    | template => grind [frameStep]
    | quoted q => grind [frameStep]
    | lineComment => grind [frameStep]
    | blockComment => grind [frameStep]

theorem frameStep_eq_close_iff {fs : List Frame} {b : UInt8} {next : Option UInt8} :
    frameStep fs b next = .close ↔ ∃ k, fs = [.code k 0] ∧ b = k.closing := by
  cases fs with
  | nil => simp [frameStep]
  | cons f st =>
    cases f with
    | code k d => cases k <;> cases d <;> cases st <;> grind [frameStep, Bracket.closing]
    | template => grind [frameStep]
    | quoted q => grind [frameStep]
    | lineComment => grind [frameStep]
    | blockComment => grind [frameStep]

/-- Frames of a search for the closing bracket of a pair: only the last one is code in which that
pair is counted. -/
def Based (k : Bracket) : List Frame → Prop
  | [] => False
  | .code k' _ :: st => st = [] ∧ k' = k ∨ Based k st
  | .template :: st => Based k st
  | .quoted _ :: st => Based k st
  | .lineComment :: st => Based k st
  | .blockComment :: st => Based k st

theorem Based.step {k : Bracket} {fs fs' : List Frame} {b : UInt8} {next : Option UInt8} {n : Nat}
    (hb : Based k fs) (h : frameStep fs b next = .pass n fs') : Based k fs' := by
  cases fs with
  | nil => cases hb
  | cons f st =>
    cases f with
    | code k' d => cases d <;> cases st <;> grind [frameStep, Based]
    | template => grind [frameStep, Based]
    | quoted q => grind [frameStep, Based]
    | lineComment => grind [frameStep, Based]
    | blockComment => grind [frameStep, Based]

theorem frameStep_append {k : Bracket} {fs gs : List Frame} {b : UInt8} {next : Option UInt8}
    (hb : Based k fs) (hg : gs ≠ []) :
    frameStep (fs ++ gs) b next =
      match frameStep fs b next with
      | .close => .pass 1 gs
      | .stop => .stop
      | .pass n fs' => .pass n (fs' ++ gs) := by
  cases fs with
  | nil => cases hb
  | cons f st =>
    cases f with
    | code k' d => cases d <;> cases st <;> cases gs <;> grind [frameStep, Based]
    | template => grind [frameStep, Based]
    | quoted q => grind [frameStep, Based]
    | lineComment => grind [frameStep, Based]
    | blockComment => grind [frameStep, Based]

/-- `Walks fs p next fs'`: a search passes by the text `p`, which the byte `next` follows, and its
frames `fs` become `fs'`. -/
inductive Walks : List Frame → Source → Option UInt8 → List Frame → Prop
  | refl (fs : List Frame) (next : Option UInt8) : Walks fs [] next fs
  | pass {fs fs' fs'' : List Frame} {b : UInt8} {q r : Source} {next : Option UInt8}
      (step : frameStep fs b ((q ++ r).head?.or next) = .pass (q.length + 1) fs')
      (rest : Walks fs' r next fs'') : Walks fs (b :: (q ++ r)) next fs''

theorem Walks.closeFrom_append {fs fs' : List Frame} {p t : Source}
    (h : Walks fs p t.head? fs') (i : Nat) :
    closeFrom fs i (p ++ t) = closeFrom fs' (i + p.length) t := by
  generalize hn : t.head? = next at h
  induction h generalizing i with
  | refl => rfl
  | pass step rest ih =>
    subst hn
    rename_i q r
    have hh : (q ++ r ++ t).head? = (q ++ r).head?.or t.head? := List.head?_append
    rw [List.cons_append, closeFrom_cons, hh, step]
    simp only [List.drop_succ_cons, List.append_assoc, List.drop_left, List.length_cons,
      List.length_append]
    rw [ih _ rfl]
    congr 1
    omega

theorem Walks.trans {fs fs' fs'' : List Frame} {p q : Source} {next : Option UInt8}
    (h : Walks fs p (q.head?.or next) fs') (h' : Walks fs' q next fs'') :
    Walks fs (p ++ q) next fs'' := by
  generalize hn : q.head?.or next = next' at h
  induction h with
  | refl => exact h'
  | pass step rest ih =>
    subst hn
    rename_i q' r
    rw [List.cons_append, List.append_assoc]
    apply Walks.pass ?_ (ih h' rfl)
    rw [← step, ← List.append_assoc, List.head?_append, Option.or_assoc]

/-- A search that ends has passed by everything before the closing bracket. -/
theorem walks_of_closeFrom {k : Bracket} {fs : List Frame} {i j : Nat} {s : Source}
    (hb : Based k fs) (h : closeFrom fs i s = some j) :
    ∃ p t, s = p ++ k.closing :: t ∧ j = i + p.length ∧
      Walks fs p (some k.closing) [.code k 0] := by
  match s with
  | [] => cases fs <;> cases h
  | b :: r =>
    rw [closeFrom_cons] at h
    cases hs : frameStep fs b r.head? with
    | stop => simp [hs] at h
    | close =>
      obtain ⟨k', rfl, rfl⟩ := frameStep_eq_close_iff.1 hs
      have hk : k' = k := by simpa [Based] using hb
      subst hk
      simp only [hs, Option.some.injEq] at h
      exact ⟨[], r, rfl, h.symm, .refl _ _⟩
    | pass n fs' =>
      simp only [hs] at h
      have hn := frameStep_pass hs
      obtain ⟨m, rfl⟩ : ∃ m, n = m + 1 := ⟨n - 1, by omega⟩
      rw [List.drop_succ_cons] at h
      obtain ⟨p, t, he, hj, hw⟩ := walks_of_closeFrom (hb.step hs) h
      have hm : m ≤ r.length := by
        rcases hn with hn | ⟨hn, hr⟩
        · omega
        · cases r <;> simp_all
      have hr : r = r.take m ++ (p ++ k.closing :: t) := by rw [← he, List.take_append_drop]
      refine ⟨b :: (r.take m ++ p), t, by rw [List.cons_append, List.append_assoc, ← hr], ?_, ?_⟩
      · simp only [List.length_cons, List.length_append, List.length_take]
        omega
      · have hh : r.head? = (r.take m ++ p).head?.or (some k.closing) := by
          calc r.head? = (r.take m ++ p ++ k.closing :: t).head? := by
                rw [List.append_assoc, ← hr]
            _ = (r.take m ++ p).head?.or (some k.closing) := List.head?_append
        refine .pass ?_ hw
        rw [List.length_take, Nat.min_eq_left hm, ← hs, hh]
termination_by s.length
decreasing_by simp only [List.length_cons, List.length_drop]; omega

/-- Text in which the brackets of a pair are balanced, for the search for a closing one. -/
def Bracket.Balances (k : Bracket) (s : Source) : Prop :=
  k.close? (s ++ [k.closing]) = some s.length

instance (k : Bracket) (s : Source) : Decidable (k.Balances s) :=
  inferInstanceAs (Decidable (_ = _))

theorem Bracket.Balances.walks {k : Bracket} {s : Source} (h : k.Balances s) :
    Walks [.code k 0] s (some k.closing) [.code k 0] := by
  have hbased : Based k [.code k 0] := .inl ⟨rfl, rfl⟩
  obtain ⟨p, t, he, hj, hw⟩ := walks_of_closeFrom hbased h
  rw [Nat.zero_add] at hj
  obtain ⟨rfl, -⟩ := List.append_inj he hj
  exact hw

theorem Walks.append {k : Bracket} {fs fs' gs : List Frame} {p : Source} {next : Option UInt8}
    (h : Walks fs p next fs') (hb : Based k fs) (hg : gs ≠ []) :
    Walks (fs ++ gs) p next (fs' ++ gs) := by
  induction h with
  | refl => exact .refl _ _
  | pass step rest ih =>
    refine .pass ?_ (ih (hb.step step))
    rw [frameStep_append hb hg, step]

theorem Walks.cancel {fs fs' fs'' : List Frame} {p q : Source} {next : Option UInt8}
    (h : Walks fs p (q.head?.or next) fs') (h' : Walks fs (p ++ q) next fs'') :
    Walks fs' q next fs'' := by
  generalize hn : q.head?.or next = next' at h
  induction h with
  | refl => exact h'
  | @pass fs fs₁ _ b q' r _ step rest ih =>
    subst hn
    apply ih ?_ rfl
    rw [List.cons_append, List.append_assoc] at h'
    generalize hw : b :: (q' ++ (r ++ q)) = w at h'
    cases h' with
    | refl => cases hw
    | @pass _ fs₂ _ b' q'' r' _ step' rest' =>
      obtain ⟨rfl, he⟩ := List.cons.inj hw
      have hh : (q'' ++ r').head?.or next = (q' ++ r).head?.or (q.head?.or next) := by
        rw [← he, ← List.append_assoc, List.head?_append, Option.or_assoc]
      rw [hh, step] at step'
      obtain ⟨hl, rfl⟩ := FrameStep.pass.inj step'
      obtain ⟨rfl, rfl⟩ := List.append_inj he (Nat.succ.inj hl)
      exact rest'

def completesToken (c : UInt8) : Prop :=
  c = Source.slash ∨ c = Source.star ∨ c = Bracket.brace.opening

theorem frameStep_congr_next {fs : List Frame} {b c c' : UInt8} (hc : ¬ completesToken c)
    (hc' : ¬ completesToken c') : frameStep fs b (some c) = frameStep fs b (some c') := by
  simp only [completesToken, not_or] at hc hc'
  cases fs with
  | nil => rfl
  | cons f st => cases f <;> simp [frameStep, hc, hc']

theorem Walks.congr_next {fs fs' : List Frame} {p : Source} {c c' : UInt8}
    (h : Walks fs p (some c) fs') (hc : ¬ completesToken c) (hc' : ¬ completesToken c') :
    Walks fs p (some c') fs' := by
  generalize hn : some c = next at h
  induction h with
  | refl => exact .refl _ _
  | @pass fs fs₁ _ b q r _ step rest ih =>
    subst hn
    refine .pass ?_ (ih rfl)
    cases hq : (q ++ r).head? with
    | none => rwa [hq, Option.none_or, frameStep_congr_next hc hc'] at step
    | some a => rwa [hq] at step

def IsPlain (b : UInt8) : Prop :=
  b ≠ Source.doubleQuote ∧ b ≠ Source.singleQuote ∧ b ≠ Source.backtick ∧ b ≠ Source.slash ∧
    b ≠ Bracket.brace.opening ∧ b ≠ Bracket.brace.closing

instance (b : UInt8) : Decidable (IsPlain b) :=
  inferInstanceAs (Decidable (b ≠ Source.doubleQuote ∧ b ≠ Source.singleQuote ∧
    b ≠ Source.backtick ∧ b ≠ Source.slash ∧ b ≠ Bracket.brace.opening ∧
    b ≠ Bracket.brace.closing))

theorem isPlain_of_isIdentifierByte {b : UInt8} (h : isIdentifierByte b) : IsPlain b := by
  refine ⟨?_, ?_, ?_, ?_, ?_, ?_⟩ <;>
    · rintro rfl
      exact absurd h (by decide)

theorem walks_of_isPlain {d : Nat} {p : Source} (hp : ∀ b ∈ p, IsPlain b)
    (next : Option UInt8) : Walks [.code .brace d] p next [.code .brace d] := by
  induction p with
  | nil => exact .refl _ _
  | cons b p ih =>
    obtain ⟨h₁, h₂, h₃, h₄, h₅, h₆⟩ := hp b (List.mem_cons_self ..)
    have step : frameStep [.code .brace d] b (p.head?.or next) = .pass 1 [.code .brace d] := by
      simp only [frameStep, h₁, h₂, h₃, h₄, h₅, h₆, or_self, false_and, if_false]
    exact .pass (q := []) step (ih fun c hc => hp c (List.mem_cons_of_mem _ hc))

/-- Code between braces: the search for the closing one stops just after it. -/
def Closed (p : Source) : Prop :=
  Walks [.code .brace 0] p (some Bracket.brace.closing) [.code .brace 0]

theorem Closed.close?_eq {p : Source} (h : Closed p) (t : Source) :
    Bracket.brace.close? (p ++ Bracket.brace.closing :: t) = some p.length := by
  have hc := Walks.closeFrom_append (t := Bracket.brace.closing :: t) h 0
  rw [Bracket.close?, hc, closeFrom_cons, frameStep_eq_close_iff.2 ⟨_, rfl, rfl⟩]
  simp

theorem Closed.surround {p o c : Source} (h : Closed p) (ho : ∀ b ∈ o, IsPlain b)
    (hc : ∀ b ∈ c, IsPlain b ∧ b ≠ Source.star) : Closed (o ++ p ++ c) := by
  have closing : Walks [.code .brace 0] c (some Bracket.brace.closing) [.code .brace 0] :=
    walks_of_isPlain (fun b hb => (hc b hb).1) _
  have inside : Walks [.code .brace 0] p (c.head?.or (some Bracket.brace.closing))
      [.code .brace 0] := by
    cases c with
    | nil => exact h
    | cons b c =>
      obtain ⟨⟨-, -, -, h₄, h₅, -⟩, hs⟩ := hc b (List.mem_cons_self ..)
      exact h.congr_next (by simp only [completesToken]; decide)
        (by simp only [completesToken, h₄, h₅, hs, or_self, not_false_eq_true])
  exact ((walks_of_isPlain ho _).trans inside).trans closing

theorem closed_of_close?_eq {s : Source} {close : Nat} (h : Bracket.brace.close? s = some close) :
    Closed (s.take close) ∧ s = s.take close ++ Bracket.brace.closing :: s.drop (close + 1) := by
  obtain ⟨p, t, rfl, hj, hw⟩ := walks_of_closeFrom (k := .brace) (by simp [Based]) h
  rw [Nat.zero_add] at hj
  subst hj
  simpa [Closed] using hw

end Reactivity.Template
