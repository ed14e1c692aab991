import Reactivity.Proofs.Isolation.Strictness
import Reactivity.Proofs.Isolation.Unclosed

namespace Reactivity.Template

def TemplateError.Opens (text : Source) : TemplateError → Prop
  | .unterminatedExpression _ => expressionOpening <+: text
  | .unterminatedTemplate _ => text.head? = some Source.backtick
  | .unrecognizedFunction => False

/-- The expression or the template of a level opens where the level says. -/
def Level.OpensIn (text : Source) : Level → Prop
  | .code _ (some openedAt) => expressionOpening <+: text.drop openedAt
  | .template openedAt _ => (text.drop openedAt).head? = some Source.backtick
  | _ => True

theorem TemplateError.Opens.append {text : Source} {err : TemplateError} (h : err.Opens text)
    (t : Source) : err.Opens (text ++ t) := by
  cases err with
  | unterminatedExpression => exact List.IsPrefix.trans h (List.prefix_append text t)
  | unterminatedTemplate =>
    rw [TemplateError.Opens, List.head?_append, h]
    rfl
  | unrecognizedFunction => cases h

/-- Where the end of the text leaves something open, that opens at the offset of the error. -/
theorem endOfText_opens {text : Source} {levels : List Level} {err : TemplateError} {i : Nat}
    (hl : ∀ l ∈ levels, l.OpensIn text) (h : endOfText levels = .broken err)
    (hi : err.offset? = some i) : err.Opens (text.drop i) := by
  induction levels with
  | nil => cases h
  | cons l levels ih =>
    have here := hl l (List.mem_cons_self ..)
    have later := ih fun l hl' => hl l (List.mem_cons_of_mem _ hl')
    cases l with
    | code depth openedAt =>
      cases openedAt with
      | none => cases h
      | some openedAt =>
        cases h
        cases hi
        exact here
    | template openedAt tagged =>
      cases h
      cases hi
      exact here
    | quoted q => exact later h
    | lineComment => exact later h
    | blockComment => exact later h

theorem levelStep_opensIn {tag : Source} {levels levels' : List Level} {before r : Source} {b : UInt8}
    {n : Nat} (hl : ∀ l ∈ levels, l.OpensIn (before.reverse ++ b :: r))
    (h : levelStep tag levels before b r.head? = .pass n levels') :
    ∀ l ∈ levels', l.OpensIn (before.reverse ++ b :: r) := by
  have template (hb : b = Source.backtick) (tagged : Bool) :
      (Level.template before.length tagged).OpensIn (before.reverse ++ b :: r) := by
    rw [Level.OpensIn, List.drop_left' List.length_reverse, hb]
    rfl
  have expression (hb : b = Source.dollar) (hr : r.head? = some Bracket.brace.opening) :
      (Level.code 0 (some before.length)).OpensIn (before.reverse ++ b :: r) := by
    obtain ⟨t, rfl⟩ := List.head?_eq_some_iff.1 hr
    rw [Level.OpensIn, List.drop_left' List.length_reverse, hb]
    exact ⟨t, rfl⟩
  -- The depth of the braces does not say where an expression opens.
  have depth {d d' : Nat} {openedAt : Option Nat}
      (hd : (Level.code d openedAt).OpensIn (before.reverse ++ b :: r)) :
      (Level.code d' openedAt).OpensIn (before.reverse ++ b :: r) := by
    cases openedAt <;> exact hd
  cases levels with
  | nil => cases h
  | cons l st =>
    obtain ⟨here, rest⟩ := List.forall_mem_cons.1 hl
    cases l with
    | quoted q => grind [levelStep, Level.OpensIn]
    | lineComment => grind [levelStep, Level.OpensIn]
    | blockComment => grind [levelStep, Level.OpensIn]
    | template openedAt tagged => grind [levelStep]
    | code d openedAt => grind [levelStep, Level.OpensIn]

theorem scanFrom_opens {tag : Source} {levels : List Level} {before s : Source} {err : TemplateError}
    {i : Nat} (hl : ∀ l ∈ levels, l.OpensIn (before.reverse ++ s))
    (h : (scanFrom tag levels before s).ending = .broken err) (hi : err.offset? = some i) :
    err.Opens ((before.reverse ++ s).drop i) := by
  induction levels, before, s using scan_induction tag with
  | close before s => cases s <;> simp [scanFrom] at h
  | done levels before =>
    cases levels with
    | nil => simp [scanFrom] at h
    | cons l st =>
      rw [scanFrom] at h
      exact endOfText_opens hl h hi
  | pass levels before b q t levels' hp ih =>
    rw [hp.scanFrom_eq] at h
    obtain ⟨n, hs, -⟩ := hp
    have htext : ((b :: q).reverse ++ before).reverse ++ t = before.reverse ++ b :: (q ++ t) := by simp
    rw [htext] at ih
    exact ih (levelStep_opensIn hl hs) h
  | unterminated openedAt st before rest hc =>
    rw [scanFrom_unterminated_eq hc] at h
    cases h
    cases hi
    rw [List.drop_left' List.length_reverse]
    exact ⟨rest, rfl⟩
  | record openedAt st before text t hc ih =>
    rw [scanFrom_record_eq hc] at h
    have htext : ((inBraces text).reverse ++ before).reverse ++ t =
        before.reverse ++ (inBraces text ++ t) := by
      simp
    rw [htext] at ih
    exact ih hl h

theorem scan_opens {tag s : Source} {err : TemplateError} {i : Nat}
    (h : (scan tag s).error = some err) (hi : err.offset? = some i) : err.Opens (s.drop i) := by
  have hlevels : ∀ l ∈ [Level.code 0 none], l.OpensIn ([].reverse ++ s) := by
    intro l hl
    obtain rfl := List.mem_singleton.1 hl
    trivial
  exact scanFrom_opens hlevels (Scan.error_eq_some_iff.1 h) hi

theorem isolateFunction_opens {o : Options} (ho : o.strict) {source : Source} {err : TemplateError}
    {i : Nat} (h : isolateFunction o source = .error err) (hi : err.offset? = some i) :
    ∃ n, normalForm source = .ok n ∧ err.Opens (n.drop i) := by
  rw [isolateFunction] at h
  cases hn : normalForm source with
  | ok n =>
    rw [hn] at h
    exact ⟨n, rfl, scan_opens ((isolate_eq_error_iff ho).1 h) hi⟩
  | error err' =>
    rw [hn] at h
    obtain rfl : err' = err := by simpa [ho] using h
    rw [normalForm_error hn] at hi
    cases hi

def indentation (s : Source) : Nat :=
  s.length - (trimStart s).length

theorem drop_indentation (s : Source) : s.drop (indentation s) = trimStart s := by
  obtain ⟨v, hv, -⟩ := exists_append_trimStart s
  have hlen : s.length = v.length + (trimStart s).length := by
    rw [← List.length_append, ← hv]
  have hv' : v.length = indentation s := by
    rw [indentation]
    omega
  calc s.drop (indentation s) = (v ++ trimStart s).drop (indentation s) := by rw [← hv]
    _ = trimStart s := List.drop_left' hv'

/-- What opens in a trimmed text opens in the text itself, so many bytes later as there is white space in
front. -/
theorem TemplateError.Opens.of_trim {s : Source} {err : TemplateError} {i : Nat}
    (h : err.Opens ((trim s).drop i)) : err.Opens (s.drop (indentation s + i)) := by
  obtain ⟨w, hw, -⟩ := exists_append_trimEnd (trimStart s)
  rw [← List.drop_drop, drop_indentation, hw, List.drop_append]
  exact h.append _

/-- The offset of a strict error counts bytes of the normal form: at an expression that is never closed
it has its two opening bytes there, and at a template its backtick. In a text that starts with the word
for a function they are bytes of the text itself, without the white space in front of it. -/
theorem strict_offset_in_normalForm (o : Options) (source : Source) :
    let strict := { o with strict := true }
    (∀ offset, isolateFunction strict source = .error (.unterminatedExpression offset) →
      ∃ n, normalForm source = .ok n ∧ expressionOpening <+: n.drop offset) ∧
    (∀ offset, isolateFunction strict source = .error (.unterminatedTemplate offset) →
      ∃ n, normalForm source = .ok n ∧ n[offset]? = some Source.backtick) ∧
    (startsFunction (afterAsync (trim source)) → ∀ err offset,
      isolateFunction strict source = .error err → err.offset? = some offset →
        err.Opens (source.drop (indentation source + offset))) := by
  intro strict
  refine ⟨fun offset h => isolateFunction_opens rfl h rfl, fun offset h => ?_, ?_⟩
  · obtain ⟨n, hn, hopens⟩ := isolateFunction_opens rfl h rfl
    exact ⟨n, hn, by rw [← List.head?_drop]; exact hopens⟩
  · intro hstart err offset h hoffset
    obtain ⟨n, hn, hopens⟩ := isolateFunction_opens rfl h hoffset
    obtain rfl := Except.ok.inj ((normalForm_of_startsFunction hstart).symm.trans hn)
    exact hopens.of_trim

/-- There is white space in front, and a template that is never closed behind it. -/
theorem strict_offset_in_normalForm_indented :
    let o := Options.standard
    let source := Source.ofString "  function() \x7b return html`a; \x7d"
    isolateFunction { o with strict := true } source = .error (.unterminatedTemplate 24) ∧
      (∃ n, normalForm source = .ok n ∧ n[24]? = some Source.backtick) ∧
      indentation source = 2 ∧
      TemplateError.Opens (source.drop 26) (.unterminatedTemplate 24) := by
  intro o source
  have hfails : isolateFunction { o with strict := true } source =
      .error (.unterminatedTemplate 24) := by
    decide +kernel
  have hindent : indentation source = 2 := by decide +kernel
  obtain ⟨-, htemplate, hfunction⟩ := strict_offset_in_normalForm o source
  have hopens := hfunction (by decide +kernel) _ 24 hfails rfl
  rw [hindent] at hopens
  exact ⟨hfails, htemplate 24 hfails, hindent, hopens⟩

/-- The text of an arrow function is another one than its normal form, and shorter than the offset. -/
theorem strict_offset_not_in_source :
    let strict := { Options.standard with strict := true }
    let source := Source.ofString "() => html`x"
    isolateFunction strict source = .error (.unterminatedTemplate 25) ∧
      source[10]? = some Source.backtick ∧ source[25]? ≠ some Source.backtick := by
  decide +kernel

end Reactivity.Template
