import Reactivity.Proofs.Isolation.Repeat
import Reactivity.Proofs.Isolation.Verbatim

namespace Reactivity.Template

theorem Walks.inside {k : Bracket} {fs gs fs' : List Frame} {p : Source} {next : Option UInt8}
    {i : Nat} (h : Walks (fs ++ gs) p next fs') (hb : Based k fs) (hg : gs ≠ [])
    (hc : closeFrom fs i p = none) : ∃ fs₁, fs' = fs₁ ++ gs ∧ Based k fs₁ := by
  generalize hfg : fs ++ gs = fs₀ at h
  induction h generalizing fs i with
  | refl => exact ⟨fs, hfg.symm, hb⟩
  | @pass _ fs₁ _ b q r next step rest ih =>
    subst hfg
    rw [frameStep_append hb hg] at step
    cases hs : frameStep fs b ((q ++ r).head?.or next) with
    | close =>
      obtain ⟨k', rfl, rfl⟩ := frameStep_eq_close_iff.1 hs
      rw [closeFrom_cons, frameStep_eq_close_iff.2 ⟨k', rfl, rfl⟩] at hc
      cases hc
    | stop =>
      rw [hs] at step
      cases step
    | pass n fs₂ =>
      simp only [hs] at step
      obtain ⟨rfl, rfl⟩ := FrameStep.pass.inj step
      refine ih (i := i + (q.length + 1)) (hb.step hs) ?_ rfl
      cases hq : (q ++ r).head? with
      | none =>
        obtain ⟨-, rfl⟩ := List.append_eq_nil_iff.1 (List.head?_eq_none_iff.1 hq)
        exact closeFrom_nil ..
      | some c =>
        rw [hq] at hs
        rw [closeFrom_cons, hq, show frameStep fs b (some c) = _ from hs] at hc
        simpa using hc

/-- Where a search is back in the code that it began in, a scan leaves nothing open. -/
theorem error_of_walks {k : Bracket} {tag : Source} {levels : List Level} {frames : List Frame}
    {before s : Source} {d : Nat} (hl : Follows k levels frames)
    (h : Walks frames s (some k.closing) [.code k d]) :
    (scanFrom tag levels before s).error = none := by
  induction levels, before, s using scan_induction tag generalizing frames with
  | close before s => cases hl
  | done levels before =>
    cases h
    obtain ⟨depth, _, rfl, -⟩ := hl.eq_base
    rw [scanFrom]
    rfl
  | pass levels before b q t levels' hp ih =>
    obtain ⟨frames', hl', -, hrest⟩ := Walks.of_passes hl hp h
    rw [hp.scanFrom_eq]
    exact ih hl' hrest
  | unterminated openedAt st before rest hc =>
    obtain ⟨frames, rfl⟩ := hl.template
    have opening : Walks (.template :: frames) [Source.dollar, Bracket.brace.opening]
        (rest.head?.or (some k.closing)) ([Frame.code .brace 0] ++ .template :: frames) :=
      .pass (q := [Bracket.brace.opening]) frameStep_template (.refl _ _)
    have inside : Walks ([Frame.code .brace 0] ++ .template :: frames) rest (some k.closing)
        [.code k d] := opening.cancel h
    obtain ⟨fs, he, hb⟩ := inside.inside (.inl ⟨rfl, rfl⟩) (List.cons_ne_nil _ _) hc
    cases fs with
    | nil => cases hb
    | cons f fs => simp at he
  | record openedAt st before text t hc ih =>
    obtain ⟨frames, rfl⟩ := hl.template
    rw [scanFrom_record_eq hc]
    exact ih hl ((hc.walks_inBraces _ _).cancel h)

theorem Closed.error_eq_none {s : Source} (h : Closed s) (tag : Source) :
    (scan tag s).error = none :=
  error_of_walks (.base 0 0) h

theorem closed_of_terminated {tag : Source} {levels : List Level} {before s : Source}
    {e : Expression} (he : e ∈ (scanFrom tag levels before s).expressions) (ht : e.terminated) :
    Closed e.text := by
  induction levels, before, s using scan_induction tag with
  | close before s =>
    rw [scanFrom_nil_levels] at he
    cases he
  | done levels before =>
    rw [scanFrom_nil_source] at he
    cases he
  | pass levels before b q t levels' hp ih =>
    rw [hp.scanFrom_eq] at he
    exact ih he
  | unterminated openedAt st before rest hc =>
    rw [scanFrom_unterminated hc, List.mem_singleton] at he
    subst he
    cases ht
  | record openedAt st before text t hc ih =>
    rw [scanFrom_record hc] at he
    rcases List.mem_cons.1 he with rfl | he
    · exact hc
    · exact ih he

/-- `Holds s e`: some scan finds the record `e` in the text `s`, or in the text of a record of it, at
any depth. The tag may be another one at each depth. -/
inductive Holds : Source → Expression → Prop
  | here {tag s : Source} {e : Expression} (h : e ∈ (scan tag s).expressions) : Holds s e
  | inside {tag s : Source} {e e' : Expression} (h : e ∈ (scan tag s).expressions)
      (h' : Holds e.text e') : Holds s e'

theorem Holds.error_eq_none {s : Source} {e : Expression} (h : Holds s e) (ht : e.terminated)
    (tag : Source) : (scan tag e.text).error = none := by
  induction h with
  | here h => exact (closed_of_terminated h ht).error_eq_none tag
  | inside _ _ ih => exact ih ht

theorem isolate_eq_ok_isolated {o : Options} {s : Source} (h : (scan o.tag s).error = none) :
    isolate o s = .ok (isolated o s) := by
  have hr : (scan o.tag s).refusal o = none := by rw [Scan.refusal, h, ite_self]
  have hok := isolate_of_inside hr fun e he hord => by
    have hlt : e.text.length < s.length := scanFrom_text_length_lt _ _ _ _ _ he
    exact isolate_eq_ok_isolated ((Holds.here he).error_eq_none (e.isOrdinary_terminated hord) o.tag)
  rw [isolated, hok]
  rfl
termination_by s.length

/-- A strict isolation fails for what the text itself leaves open, and for nothing else. -/
theorem isolate_eq_error_iff {o : Options} (ho : o.strict) {s : Source} {err : TemplateError} :
    isolate o s = .error err ↔ (scan o.tag s).error = some err := by
  cases h : (scan o.tag s).error with
  | none => simp [isolate_eq_ok_isolated h]
  | some err' =>
    have hr : (scan o.tag s).refusal o = some err' := by rw [Scan.refusal, if_pos ho, h]
    rw [isolate, hr]
    simp

theorem normalForm_error {s : Source} {err : TemplateError} (h : normalForm s = .error err) :
    err = .unrecognizedFunction := by
  obtain ⟨modifier, -, hform⟩ := normalForm_eq_formAfter s
  rw [hform, formAfter] at h
  repeat' split at h
  all_goals cases h
  all_goals rfl

theorem error_ne_unrecognized {tag s : Source} :
    (scan tag s).error ≠ some .unrecognizedFunction := by
  intro h
  obtain ⟨i, hi, -⟩ := scanFrom_broken (Scan.error_eq_some_iff.1 h)
  cases hi

/-- Strict isolation is decided by the outermost text alone: it fails for a text that is no function,
and otherwise for what the normal form itself leaves open, with that very error; if it succeeds, it
gives what lenient isolation gives. Nothing is left open in the text of a terminated record. -/
theorem strict_decided_outermost (o : Options) (source : Source) :
    let strict := { o with strict := true }
    (isolateFunction strict source = .error .unrecognizedFunction ↔
      ∃ err, normalForm source = .error err) ∧
    (∀ n, normalForm source = .ok n → ∀ err,
      isolateFunction strict source = .error err ↔ (scan o.tag n).error = some err) ∧
    (∀ t, isolateFunction strict source = .ok t → isolateFunction o.lenient source = .ok t) ∧
    ∀ s e, Holds s e → e.terminated → ∀ tag, (scan tag e.text).error = none := by
  intro strict
  have hstrict : strict.strict := rfl
  have hlenient (s : Source) (t : Source) (h : isolate strict s = .ok t) :
      isolate o.lenient s = .ok t := isolate_lenient (o := strict) h
  refine ⟨?_, fun n hn err => ?_, fun t ht => ?_, fun s e h ht tag => h.error_eq_none ht tag⟩
  · rw [isolateFunction]
    cases hn : normalForm source with
    | ok n => simp [isolate_eq_error_iff hstrict, error_ne_unrecognized]
    | error err => simp [hstrict, normalForm_error hn]
  · rw [isolateFunction, hn]
    exact isolate_eq_error_iff hstrict
  · rw [isolateFunction] at ht ⊢
    cases hn : normalForm source with
    | ok n =>
      rw [hn] at ht
      exact hlenient n t ht
    | error err =>
      rw [hn] at ht
      cases ht

/-- The template in the first expression is terminated, and the last expression is not. -/
theorem strict_decided_outermost_unclosed :
    let o := Options.standard
    let source := Source.ofString "p => html`$\x7bhtml`$\x7ba\x7d`\x7d$\x7bb + \x7b`"
    let n := Source.ofString
      "function(p) \x7b return (html`$\x7bhtml`$\x7ba\x7d`\x7d$\x7bb + \x7b`\n); \x7d"
    let e : Expression := ⟨27, 40, Source.ofString "html`$\x7ba\x7d`", true⟩
    normalForm source = .ok n ∧
      isolateFunction { o with strict := true } source = .error (.unterminatedExpression 40) ∧
      e.terminated ∧ (scan o.tag e.text).error = none := by
  intro o source n e
  have hn : normalForm source = .ok n := by decide +kernel
  have he : e ∈ (scan o.tag n).expressions := by decide +kernel
  obtain ⟨-, hfails, -, hinside⟩ := strict_decided_outermost o source
  exact ⟨hn, (hfails n hn _).2 (by decide +kernel), rfl, hinside n e (.here he) rfl o.tag⟩

end Reactivity.Template
