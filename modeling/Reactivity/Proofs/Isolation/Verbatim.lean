import Reactivity.Proofs.Isolation.Undo

namespace Reactivity.Template

def TemplateError.offset? : TemplateError → Option Nat
  | .unterminatedExpression offset => some offset
  | .unterminatedTemplate offset => some offset
  | .unrecognizedFunction => none

def Level.openedAt? : Level → Option Nat
  | .code _ openedAt => openedAt
  | .template openedAt _ => some openedAt
  | _ => none

def OpensAt (levels : List Level) (i : Nat) : Prop :=
  ∃ l ∈ levels, l.openedAt? = some i

theorem opensAt_nil {i : Nat} : ¬ OpensAt [] i :=
  fun ⟨_, hl, _⟩ => List.not_mem_nil hl

theorem opensAt_cons {l : Level} {levels : List Level} {i : Nat} :
    OpensAt (l :: levels) i ↔ l.openedAt? = some i ∨ OpensAt levels i := by
  simp [OpensAt]

theorem endOfText_broken {levels : List Level} {err : TemplateError}
    (h : endOfText levels = .broken err) : ∃ i, err.offset? = some i ∧ OpensAt levels i := by
  induction levels with
  | nil => cases h
  | cons l levels ih =>
    have later (h : endOfText levels = .broken err) :
        ∃ i, err.offset? = some i ∧ OpensAt (l :: levels) i := by
      obtain ⟨i, hi, ho⟩ := ih h
      exact ⟨i, hi, opensAt_cons.2 (.inr ho)⟩
    cases l with
    | code depth openedAt =>
      cases openedAt with
      | none => cases h
      | some i =>
        cases h
        exact ⟨i, rfl, opensAt_cons.2 (.inl rfl)⟩
    | template i tagged =>
      cases h
      exact ⟨i, rfl, opensAt_cons.2 (.inl rfl)⟩
    | quoted q => exact later h
    | lineComment => exact later h
    | blockComment => exact later h

theorem levelStep_opensAt {tag : Source} {levels levels' : List Level} {before : Source} {b : UInt8}
    {next : Option UInt8} {n i : Nat} (h : levelStep tag levels before b next = .pass n levels')
    (hi : OpensAt levels' i) : OpensAt levels i ∨ i = before.length := by
  cases levels with
  | nil => cases h
  | cons l st => cases l <;> grind [levelStep, opensAt_cons, Level.openedAt?]

/-- What is left open was open before the scan, or opens where the scan began or later. -/
theorem scanFrom_broken {tag : Source} {levels : List Level} {before s : Source}
    {err : TemplateError} (h : (scanFrom tag levels before s).ending = .broken err) :
    ∃ i, err.offset? = some i ∧ (OpensAt levels i ∨ before.length ≤ i) := by
  induction levels, before, s using scan_induction tag with
  | close before s => cases s <;> simp [scanFrom] at h
  | done levels before =>
    cases levels with
    | nil => simp [scanFrom] at h
    | cons l st =>
      rw [scanFrom] at h
      obtain ⟨i, hi, ho⟩ := endOfText_broken h
      exact ⟨i, hi, .inl ho⟩
  | pass levels before b q t levels' hp ih =>
    rw [hp.scanFrom_eq] at h
    obtain ⟨i, hi, ho⟩ := ih h
    refine ⟨i, hi, ?_⟩
    rw [length_reverse_append] at ho
    obtain ⟨n, hs, -⟩ := hp
    rcases ho with ho | hle
    · exact (levelStep_opensAt hs ho).imp id fun he => Nat.le_of_eq he.symm
    · exact .inr (by omega)
  | unterminated openedAt st before rest hc =>
    rw [scanFrom_unterminated_eq hc] at h
    cases h
    exact ⟨_, rfl, .inr (Nat.le_refl _)⟩
  | record openedAt st before text t hc ih =>
    rw [scanFrom_record_eq hc] at h
    obtain ⟨i, hi, ho⟩ := ih h
    rw [length_reverse_append] at ho
    exact ⟨i, hi, ho.imp id fun hle => by omega⟩

theorem Located.start_ge {i : Nat} {es : List Expression} {s : Source} (h : Located i es s) :
    ∀ e ∈ es, i ≤ e.start := by
  induction h with
  | done => exact fun _ he => absurd he List.not_mem_nil
  | @cons i e es p t start stop _ ih =>
    intro e' he
    rcases List.mem_cons.1 he with rfl | he
    · omega
    · have := ih e' he
      omega

def Expression.Spares (i : Nat) (e : Expression) : Prop :=
  e.stop ≤ i ∨ i ≤ e.start

theorem scanFrom_spares {tag : Source} {levels : List Level} {before s : Source}
    {err : TemplateError} {i : Nat} (hl : ∀ j, OpensAt levels j → j ≤ before.length)
    (h : (scanFrom tag levels before s).ending = .broken err) (hi : err.offset? = some i) :
    ∀ e ∈ (scanFrom tag levels before s).expressions, e.Spares i := by
  induction levels, before, s using scan_induction tag with
  | close before s =>
    rw [scanFrom_nil_levels]
    exact fun _ he => absurd he List.not_mem_nil
  | done levels before =>
    rw [scanFrom_nil_source]
    exact fun _ he => absurd he List.not_mem_nil
  | pass levels before b q t levels' hp ih =>
    rw [hp.scanFrom_eq] at h ⊢
    refine ih (fun j hj => ?_) h
    rw [length_reverse_append]
    obtain ⟨n, hs, -⟩ := hp
    rcases levelStep_opensAt hs hj with hj | rfl
    · have := hl j hj
      omega
    · omega
  | unterminated openedAt st before rest hc =>
    rw [scanFrom_unterminated_eq hc] at h ⊢
    cases h
    cases hi
    intro e he
    obtain rfl := List.mem_singleton.1 he
    exact .inr (Nat.le_refl _)
  | record openedAt st before text t hc ih =>
    rw [scanFrom_record_eq hc] at h ⊢
    have hl' : ∀ j, OpensAt (.template openedAt true :: st) j →
        j ≤ ((inBraces text).reverse ++ before).length := by
      intro j hj
      have := hl j hj
      rw [length_reverse_append]
      omega
    intro e he
    rcases List.mem_cons.1 he with rfl | he
    · obtain ⟨j, hj, ho⟩ := scanFrom_broken (h : (scanFrom tag _ _ t).ending = .broken err)
      obtain rfl : j = i := Option.some.inj (hj.symm.trans hi)
      rcases ho with ho | hle
      · exact .inr (hl j ho)
      · rw [length_reverse_append] at hle
        exact .inl hle
    · exact ih hl' h e he

theorem Scan.error_eq_some_iff {s : Scan} {err : TemplateError} :
    s.error = some err ↔ s.ending = .broken err := by
  rw [Scan.error]
  cases s.ending <;> simp

theorem scan_spares {tag s : Source} {err : TemplateError} {i : Nat}
    (h : (scan tag s).error = some err) (hi : err.offset? = some i) :
    ∀ e ∈ (scan tag s).expressions, e.Spares i := by
  refine scanFrom_spares (fun j hj => ?_) (Scan.error_eq_some_iff.1 h) hi
  rcases opensAt_cons.1 hj with ho | ho
  · cases ho
  · exact absurd ho opensAt_nil

def recordsFrom (i : Nat) (es : List Expression) : List Expression :=
  es.filter (i ≤ ·.start)

/-- A text is edited before and after an offset that no record reaches over. -/
theorem edited_eq_append_from {f : Expression → Option Source} {i k : Nat}
    {es : List Expression} {s : Source} (h : Located k es s) (hk : k ≤ i)
    (hes : ∀ e ∈ es, e.Spares i) :
    Located i (recordsFrom i es) (s.drop (i - k)) ∧
      ∃ p, edited f k es s = p ++ edited f i (recordsFrom i es) (s.drop (i - k)) := by
  induction h with
  | done k s => exact ⟨.done _ _, s.take (i - k), (List.take_append_drop _ _).symm⟩
  | @cons k e es p t start stop rest ih =>
    have hlen : 2 ≤ e.source.length := by
      cases ht : e.terminated <;> simp [Expression.source, ht, inBraces]
    rcases hes e (List.mem_cons_self ..) with hle | hge
    · obtain ⟨hloc, p', hp'⟩ := ih hle fun e' he' => hes e' (List.mem_cons_of_mem _ he')
      have hrec : recordsFrom i (e :: es) = recordsFrom i es :=
        List.filter_cons_of_neg (by simp only [decide_eq_true_eq]; omega)
      have hdrop : (p ++ (e.source ++ t)).drop (i - k) = t.drop (i - e.stop) := by
        have hlt : (p ++ e.source).length ≤ i - k := by
          rw [List.length_append]
          omega
        rw [← List.append_assoc, List.drop_append, List.drop_of_length_le hlt, List.nil_append,
          List.length_append]
        congr 1
        omega
      rw [hrec, hdrop]
      refine ⟨hloc, p ++ (f e).getD e.source ++ p', ?_⟩
      rw [edited_cons start stop, hp', List.append_assoc (p ++ _)]
    · have hall : ∀ e' ∈ e :: es, i ≤ e'.start := by
        intro e' he'
        rcases List.mem_cons.1 he' with rfl | he'
        · exact hge
        · have := rest.start_ge e' he'
          omega
      have hrec : recordsFrom i (e :: es) = e :: es :=
        List.filter_eq_self.2 fun e' he' => by simpa using hall e' he'
      have hp : i - k ≤ p.length := by omega
      have hq : (p.take (i - k)).length = i - k := by simp [hp]
      have hd : (p ++ (e.source ++ t)).drop (i - k) = p.drop (i - k) ++ (e.source ++ t) :=
        List.drop_append_of_le_length hp
      have hloc : Located (k + (p.take (i - k)).length) (e :: es)
          (p.drop (i - k) ++ (e.source ++ t)) := by
        refine .cons ?_ stop rest
        rw [hq, List.length_drop]
        omega
      have hi : k + (p.take (i - k)).length = i := by omega
      have happ := edited_append (f := f) hloc
      rw [hi, ← List.append_assoc, List.take_append_drop] at happ
      rw [hi] at hloc
      rw [hrec, hd]
      exact ⟨hloc, p.take (i - k), happ⟩

theorem edited_eq_self {f : Expression → Option Source} {i : Nat} {es : List Expression}
    {s : Source} (h : Located i es s) (hf : ∀ e ∈ es, f e = none) : edited f i es s = s := by
  induction h with
  | done => rfl
  | cons start stop _ ih =>
    rw [edited_cons start stop, hf _ (List.mem_cons_self ..),
      ih fun e he => hf e (List.mem_cons_of_mem _ he), Option.getD_none, List.append_assoc]

/-- An expression of a tagged template that is never closed is the last record, and what is left
open. -/
theorem scanFrom_openRecord {tag : Source} {levels : List Level} {before s : Source}
    {e : Expression} (he : e ∈ (scanFrom tag levels before s).expressions)
    (ht : e.terminated = false) :
    (scanFrom tag levels before s).ending = .broken (.unterminatedExpression e.start) ∧
      recordsFrom e.start (scanFrom tag levels before s).expressions = [e] := by
  induction levels, before, s using scan_induction tag with
  | close before s =>
    rw [scanFrom_nil_levels] at he
    exact absurd he List.not_mem_nil
  | done levels before =>
    rw [scanFrom_nil_source] at he
    exact absurd he List.not_mem_nil
  | pass levels before b q t levels' hp ih =>
    rw [hp.scanFrom_eq] at he ⊢
    exact ih he
  | unterminated openedAt st before rest hc =>
    rw [scanFrom_unterminated_eq hc] at he ⊢
    obtain rfl := List.mem_singleton.1 he
    exact ⟨rfl, by simp [recordsFrom]⟩
  | record openedAt st before text t hc ih =>
    rw [scanFrom_record_eq hc] at he ⊢
    rcases List.mem_cons.1 he with rfl | he
    · cases ht
    · obtain ⟨hb, hr⟩ := ih he
      refine ⟨hb, ?_⟩
      have hge := (scanFrom_located tag _ _ t).start_ge e he
      rw [length_reverse_append] at hge
      have hlen : 0 < (inBraces text).length := by simp [inBraces]
      have hlt : ¬ e.start ≤ before.length := by omega
      rw [← hr]
      exact List.filter_cons_of_neg fun hle => hlt (of_decide_eq_true hle)

/-- What is left open stands at the end of the isolated text with nothing replaced in it but the closed
expressions that are isolated. -/
theorem isolated_eq_append_from {o : Options} (ho : o.strict = false) {n : Source}
    {err : TemplateError} {i : Nat} (h : (scan o.tag n).error = some err)
    (hi : err.offset? = some i) :
    ∃ p, isolated o n = p ++ edited (wrapping o (isolated o)) i
        (recordsFrom i (scan o.tag n).expressions) (n.drop i) ∧
      ((∀ e ∈ recordsFrom i (scan o.tag n).expressions, ¬ e.isOrdinary o) ∨
        (∃ e ∈ (scan o.tag n).expressions, e.terminated = false) →
        isolated o n = p ++ n.drop i) := by
  obtain ⟨hloc, p, hp⟩ := edited_eq_append_from (f := wrapping o (isolated o))
    (scan_located o.tag n) (Nat.zero_le i) (scan_spares h hi)
  have hout : isolated o n = p ++ edited (wrapping o (isolated o)) i
      (recordsFrom i (scan o.tag n).expressions) (n.drop i) := by
    rw [isolated_eq_edited ho, hp, Nat.sub_zero]
  refine ⟨p, hout, fun hkept => ?_⟩
  have hnone : ∀ e ∈ recordsFrom i (scan o.tag n).expressions, ¬ e.isOrdinary o := by
    rcases hkept with hnone | ⟨e, he, ht⟩
    · exact hnone
    · obtain ⟨he', hr⟩ := scanFrom_openRecord he ht
      obtain rfl : err = .unterminatedExpression e.start :=
        Ending.broken.inj ((Scan.error_eq_some_iff.1 h).symm.trans he')
      cases hi
      rintro e' hmem hord
      rw [scan, hr, List.mem_singleton] at hmem
      subst hmem
      exact absurd (e'.isOrdinary_terminated hord) (by simp [ht])
  have hself : ∀ e ∈ recordsFrom i (scan o.tag n).expressions,
      wrapping o (isolated o) e = none := fun e he => if_neg (hnone e he)
  rw [hout, edited_eq_self (Nat.sub_zero i ▸ hloc) hself]

/-- What is left open stands at the end of the result with nothing replaced in it but the closed
expressions that are isolated: it is kept as it stands if there are none, and so is an expression of
a tagged template that is never closed. -/
theorem leftOpen_kept {o : Options} (ho : o.strict = false) {source : Source} {err : TemplateError}
    (h : (scan o.tag (isolationInput source)).error = some err) :
    ∃ i p, err.offset? = some i ∧
      isolateFunction o source = .ok (p ++ edited (wrapping o (isolated o)) i
        (recordsFrom i (scan o.tag (isolationInput source)).expressions)
        ((isolationInput source).drop i)) ∧
      ((∀ e ∈ recordsFrom i (scan o.tag (isolationInput source)).expressions,
          ¬ e.isOrdinary o) ∨
        (∃ e ∈ (scan o.tag (isolationInput source)).expressions, e.terminated = false) →
        isolateFunction o source = .ok (p ++ (isolationInput source).drop i)) := by
  obtain ⟨i, hi, -⟩ := scanFrom_broken (Scan.error_eq_some_iff.1 h)
  obtain ⟨p, hout, hkept⟩ := isolated_eq_append_from ho h hi
  rw [isolateFunction_eq_ok ho]
  exact ⟨i, p, hi, congrArg Except.ok hout, fun hc => congrArg Except.ok (hkept hc)⟩

theorem leftOpen_kept_expression :
    let source := Source.ofString "html`$\x7ba\x7d$\x7bb"
    let n := isolationInput source
    let es := (scan Options.standard.tag n).expressions
    ∃ i p, TemplateError.offset? (.unterminatedExpression 9) = some i ∧
      isolateFunction Options.standard source =
        .ok (p ++ edited (wrapping Options.standard (isolated Options.standard)) i
          (recordsFrom i es) (n.drop i)) ∧
      ((∀ e ∈ recordsFrom i es, ¬ e.isOrdinary Options.standard) ∨
        (∃ e ∈ es, e.terminated = false) →
        isolateFunction Options.standard source = .ok (p ++ n.drop i)) :=
  leftOpen_kept rfl (by decide +kernel)

end Reactivity.Template
