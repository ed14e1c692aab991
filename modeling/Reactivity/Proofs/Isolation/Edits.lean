import Reactivity.Proofs.Isolation.Closing

namespace Reactivity.Template

def Expression.source (e : Expression) : Source :=
  if e.terminated then inBraces e.text else Source.dollar :: Bracket.brace.opening :: e.text

theorem Expression.source_head? (e : Expression) (t : Source) :
    (e.source ++ t).head? = some Source.dollar := by
  cases h : e.terminated <;> simp [Expression.source, h, inBraces]

/-- `Located i es s`: the records `es` stand in the text `s`, which begins at the offset `i`, one
after the other. -/
inductive Located : Nat → List Expression → Source → Prop
  | done (i : Nat) (s : Source) : Located i [] s
  | cons {i : Nat} {e : Expression} {es : List Expression} {p t : Source}
      (start : e.start = i + p.length) (stop : e.stop = e.start + e.source.length)
      (rest : Located e.stop es t) : Located i (e :: es) (p ++ (e.source ++ t))

theorem Located.append {i : Nat} {es : List Expression} {q s : Source}
    (h : Located (i + q.length) es s) : Located i es (q ++ s) := by
  cases h with
  | done => exact .done _ _
  | cons start stop rest =>
    rw [← List.append_assoc]
    refine .cons ?_ stop rest
    rw [start, List.length_append, Nat.add_assoc]

/-- The text `s`, which begins at the offset `i`, with the records that `f` has a text for replaced
by that. -/
def edited (f : Expression → Option Source) (i : Nat) : List Expression → Source → Source
  | [], s => s
  | e :: es, s =>
    s.take (e.start - i) ++ (f e).getD ((s.drop (e.start - i)).take (e.stop - e.start)) ++
      edited f e.stop es (s.drop (e.stop - i))

theorem edited_cons {f : Expression → Option Source} {i : Nat} {e : Expression}
    {es : List Expression} {p t : Source} (start : e.start = i + p.length)
    (stop : e.stop = e.start + e.source.length) :
    edited f i (e :: es) (p ++ (e.source ++ t)) =
      p ++ (f e).getD e.source ++ edited f e.stop es t := by
  have h₁ : e.start - i = p.length := by omega
  have h₂ : e.stop - e.start = e.source.length := by omega
  have h₃ : e.stop - i = (p ++ e.source).length := by
    rw [List.length_append]
    omega
  rw [edited, h₁, h₂, h₃, List.take_left, List.drop_left, List.take_left, ← List.append_assoc p,
    List.drop_left]

theorem edited_append {f : Expression → Option Source} {i : Nat} {es : List Expression}
    {q s : Source} (h : Located (i + q.length) es s) :
    edited f i es (q ++ s) = q ++ edited f (i + q.length) es s := by
  cases h with
  | done => rfl
  | @cons _ e es p t start stop rest =>
    have start' : e.start = i + (q ++ p).length := by
      rw [start, List.length_append, Nat.add_assoc]
    rw [edited_cons start stop, ← List.append_assoc q, edited_cons start' stop]
    simp only [List.append_assoc]

/-- The record of an expression that opens at the offset `i` and is never closed. -/
def Expression.openAt (i : Nat) (rest : Source) : Expression :=
  ⟨i, i + 2 + rest.length, rest, false⟩

def Expression.closedAt (i : Nat) (text : Source) : Expression :=
  ⟨i, i + (inBraces text).length, text, true⟩

theorem edited_openAt {f : Expression → Option Source} {i : Nat} {rest : Source}
    (hf : f (.openAt i rest) = none) :
    edited f i [.openAt i rest] (Source.dollar :: Bracket.brace.opening :: rest) =
      Source.dollar :: Bracket.brace.opening :: rest := by
  simp only [edited, hf, Option.getD_none]
  simp [Expression.openAt]

theorem edited_closedAt {f : Expression → Option Source} {i : Nat} {es : List Expression}
    {text t : Source} :
    edited f i (.closedAt i text :: es) (inBraces text ++ t) =
      (f (.closedAt i text)).getD (inBraces text) ++ edited f (i + (inBraces text).length) es t :=
  edited_cons (p := []) (e := .closedAt i text) rfl rfl

/-- An edit replaces the record, if at all, by another expression of a template, whose code is
closed if that of the record is. -/
def KeepsClosed (f : Expression → Option Source) (e : Expression) : Prop :=
  ∀ t, f e = some t → e.terminated ∧ ∃ w, t = inBraces w ∧ (Closed e.text → Closed w)

theorem edited_head? {f : Expression → Option Source} {i : Nat} {es : List Expression} {s : Source}
    (hf : ∀ e ∈ es, KeepsClosed f e) (h : Located i es s) :
    (edited f i es s).head? = s.head? := by
  cases h with
  | done => rfl
  | @cons _ e es p t start stop rest =>
    have hh : ∀ u, ((f e).getD e.source ++ u).head? = some Source.dollar := by
      intro u
      cases he : f e with
      | none => exact e.source_head? u
      | some t =>
        obtain ⟨-, w, rfl, -⟩ := hf e (List.mem_cons_self ..) t he
        rfl
    rw [edited_cons start stop, List.append_assoc, List.head?_append, hh, List.head?_append,
      e.source_head?]

theorem foldr_splice {f : Expression → Option Source} (pre : Source) {es : List Expression}
    {s : Source} (h : Located pre.length es s) :
    es.foldr (fun e out =>
        match f e with
        | some t => splice e.start e.stop t out
        | none => out) (pre ++ s) =
      pre ++ edited f pre.length es s := by
  generalize hi : pre.length = i at h
  induction h generalizing pre with
  | done => rfl
  | @cons i e es p t start stop rest ih =>
    have hpre : (pre ++ p ++ e.source).length = e.stop := by
      simp only [List.length_append]
      omega
    have hrest := ih _ hpre
    have he : pre ++ (p ++ (e.source ++ t)) = pre ++ p ++ e.source ++ t := by
      simp only [List.append_assoc]
    rw [List.foldr_cons, he, hrest, edited_cons start stop]
    cases hf : f e with
    | none => simp only [Option.getD_none, List.append_assoc]
    | some u =>
      have hstart : e.start = (pre ++ p).length := by
        rw [List.length_append]
        omega
      have htake : (pre ++ p ++ e.source ++ edited f e.stop es t).take e.start = pre ++ p := by
        rw [hstart, List.append_assoc, List.take_left]
      have hdrop : (pre ++ p ++ e.source ++ edited f e.stop es t).drop e.stop =
          edited f e.stop es t := by
        rw [List.drop_left' hpre]
      simp only [splice, htake, hdrop, Option.getD_some]
      simp only [List.append_assoc]

end Reactivity.Template
