import Reactivity.Proofs.Isolation.Alike

/-!
The expressions of a text, wherever the text stands. What is found in code depends on the identifier
before it, and on what it is inside of; how deep in braces the whole is does not matter, nor at which
offset.
-/

namespace Reactivity.Template

def Scan.texts? (s : Scan) : Option (List Source) :=
  match s.error with
  | none => some (s.expressions.map (·.text))
  | some _ => none

theorem Scan.texts?_eq_some_iff {s : Scan} {ts : List Source} :
    s.texts? = some ts ↔ s.error = none ∧ s.expressions.map (·.text) = ts := by
  rw [texts?]
  cases s.error <;> simp

theorem Scan.texts?_cons (e : Expression) (s : Scan) :
    (s.cons e).texts? = s.texts?.map (e.text :: ·) := by
  have he : (s.cons e).error = s.error := rfl
  rw [texts?, texts?, he]
  cases s.error <;> rfl

/-- The texts that a scan finds under a stack of levels, after the given text. -/
def textsFrom? (tag : Source) (levels : List Level) (before s : Source) : Option (List Source) :=
  (scanFrom tag levels before s).texts?

def texts? (tag s : Source) : Option (List Source) :=
  (scan tag s).texts?

section Steps

variable {tag : Source} {levels : List Level} {before : Source}

theorem textsFrom?_nil_levels (before s : Source) : textsFrom? tag [] before s = some [] := by
  rw [textsFrom?]
  cases s <;> rw [scanFrom] <;> rfl

theorem textsFrom?_nil : textsFrom? tag levels before [] =
    if endOfText levels = .complete then some [] else none := by
  cases levels with
  | nil => exact textsFrom?_nil_levels before []
  | cons l st =>
    rw [textsFrom?, scanFrom, Scan.texts?, Scan.error]
    generalize l :: st = levels
    induction levels with
    | nil => rfl
    | cons l st ih =>
      cases l with
      | code depth openedAt => cases openedAt <;> rfl
      | template openedAt tagged => rfl
      | _ => exact ih

theorem Passes.textsFrom?_eq {levels' : List Level} {b : UInt8} {q t : Source}
    (h : Passes tag levels before b q t levels') :
    textsFrom? tag levels before (b :: (q ++ t)) =
      textsFrom? tag levels' ((b :: q).reverse ++ before) t :=
  congrArg Scan.texts? h.scanFrom_eq

variable {openedAt : Nat} {st : List Level}

theorem textsFrom?_record {text : Source} (h : Closed text) (t : Source) :
    textsFrom? tag (.template openedAt true :: st) before (inBraces text ++ t) =
      (textsFrom? tag (.template openedAt true :: st) ((inBraces text).reverse ++ before)
        t).map (text :: ·) := by
  rw [textsFrom?, scanFrom_record_eq h, Scan.texts?_cons]
  rfl

theorem textsFrom?_unterminated {rest : Source} (h : Bracket.brace.close? rest = none) :
    textsFrom? tag (.template openedAt true :: st) before
      (Source.dollar :: Bracket.brace.opening :: rest) = none := by
  rw [textsFrom?, scanFrom_unterminated_eq h]
  rfl

end Steps

theorem terminated_of_error_eq_none {tag : Source} {levels : List Level} {before s : Source}
    (h : (scanFrom tag levels before s).error = none) :
    ∀ e ∈ (scanFrom tag levels before s).expressions, e.terminated := by
  induction levels, before, s using scan_induction tag with
  | close before s => simp [scanFrom_nil_levels]
  | done levels before => simp [scanFrom_nil_source]
  | pass levels before b q t levels' hp ih =>
    rw [hp.scanFrom_eq] at h ⊢
    exact ih h
  | unterminated openedAt st before rest hc =>
    rw [scanFrom_unterminated_eq hc] at h
    cases h
  | record openedAt st before text t hc ih =>
    rw [scanFrom_record_eq hc] at h
    rw [scanFrom_record hc]
    exact List.forall_mem_cons.2 ⟨rfl, ih h⟩

def TemplateError.moved (f : Nat → Nat) : TemplateError → TemplateError
  | .unterminatedExpression offset => .unterminatedExpression (f offset)
  | .unterminatedTemplate offset => .unterminatedTemplate (f offset)
  | .unrecognizedFunction => .unrecognizedFunction

/-- A level as far as it decides what is found, at another offset: the number of open braces in the code
that the scan began in does not matter. -/
def Level.moved (f : Nat → Nat) : Level → Level
  | .code depth openedAt =>
    .code (if openedAt.isSome then depth else 0) (openedAt.map f)
  | .template openedAt tagged => .template (f openedAt) tagged
  | l => l

section Moved

variable {f g : Nat → Nat}

theorem error_nil_levels (tag before s : Source) : (scanFrom tag [] before s).error = none := by
  cases s <;> rw [scanFrom] <;> rfl

theorem error_nil_source (tag before : Source) (levels : List Level) :
    (scanFrom tag levels before []).error = (Scan.mk [] (endOfText levels)).error := by
  cases levels with
  | nil => exact error_nil_levels tag before []
  | cons l st => rw [scanFrom]

theorem endOfText_moved {levels levels' : List Level}
    (h : levels.map (Level.moved f) = levels'.map (Level.moved g)) :
    (Scan.mk [] (endOfText levels)).error.map (TemplateError.moved f) =
      (Scan.mk [] (endOfText levels')).error.map (TemplateError.moved g) := by
  induction levels generalizing levels' with
  | nil =>
    obtain rfl : levels' = [] := by simpa using h.symm
    rfl
  | cons l st ih =>
    cases levels' with
    | nil => cases h
    | cons l' st' =>
      obtain ⟨hl, hst⟩ := List.cons.inj h
      have ih := ih hst
      cases l with
      | code depth openedAt =>
        cases l' with
        | code depth' openedAt' =>
          cases openedAt <;> cases openedAt' <;>
            simp [Level.moved, endOfText, Scan.error, TemplateError.moved] at hl ⊢
          exact hl.2
        | _ => cases hl
      | template openedAt tagged =>
        cases l' with
        | template openedAt' tagged' =>
          exact congrArg (some ∘ TemplateError.unterminatedTemplate) (Level.template.inj hl).1
        | _ => cases hl
      | _ => cases l' <;> first | exact ih | cases hl

theorem levelStep_moved {tag : Source} (htag : ∀ b ∈ tag, isIdentifierByte b)
    {levels levels' levels₁ : List Level} {before before' : Source} {b : UInt8}
    {next : Option UInt8} {n : Nat}
    (hl : levels.map (Level.moved f) = levels'.map (Level.moved g))
    (hb : lastName before = lastName before') (hf : f before.length = g before'.length)
    (h : levelStep tag levels before b next = .pass n levels₁) :
    ∃ levels₂, levelStep tag levels' before' b next = .pass n levels₂ ∧
      levels₁.map (Level.moved f) = levels₂.map (Level.moved g) := by
  have ht := endsWithTag_congr htag hb
  cases levels with
  | nil => cases h
  | cons l st =>
    cases levels' with
    | nil => cases hl
    | cons l' st' =>
      rw [List.map_cons, List.map_cons, List.cons.injEq] at hl
      obtain ⟨hl, hst⟩ := hl
      cases l with
      | quoted q => cases l' <;> grind [levelStep, Level.moved]
      | lineComment => cases l' <;> grind [levelStep, Level.moved]
      | blockComment => cases l' <;> grind [levelStep, Level.moved]
      | template openedAt tagged => cases l' <;> grind [levelStep, Level.moved]
      | code depth openedAt =>
        cases l' with
        | code depth' openedAt' =>
          cases openedAt with
          | none =>
            cases openedAt' with
            | none =>
              simp only [levelStep, ← ht] at h ⊢
              grind [Level.moved]
            | some i' => cases hl
          | some i =>
            cases openedAt' with
            | none => cases hl
            | some i' =>
              obtain ⟨rfl, hi⟩ : depth = depth' ∧ f i = g i' := by simpa [Level.moved] using hl
              simp only [levelStep, ← ht] at h ⊢
              grind [Level.moved]
        | _ => cases hl

theorem exists_template_of_moved {openedAt : Nat} {tagged : Bool} {st levels' : List Level}
    (h : (Level.template openedAt tagged :: st).map (Level.moved f) =
      levels'.map (Level.moved g)) :
    ∃ openedAt' st', levels' = .template openedAt' tagged :: st' := by
  cases levels' with
  | nil => cases h
  | cons l' st' =>
    obtain ⟨hl, -⟩ := List.cons.inj h
    cases l' with
    | template openedAt' tagged' =>
      obtain ⟨-, rfl⟩ := Level.template.inj hl
      exact ⟨openedAt', st', rfl⟩
    | _ => cases hl

theorem scanFrom_moved {tag : Source} (htag : ∀ b ∈ tag, isIdentifierByte b)
    {levels levels' : List Level} {before before' s : Source}
    (hl : levels.map (Level.moved f) = levels'.map (Level.moved g))
    (hb : lastName before = lastName before')
    (hf : ∀ k, f (before.length + k) = g (before'.length + k)) :
    (scanFrom tag levels before s).error.map (TemplateError.moved f) =
        (scanFrom tag levels' before' s).error.map (TemplateError.moved g) ∧
      (scanFrom tag levels before s).expressions.map (·.text) =
        (scanFrom tag levels' before' s).expressions.map (·.text) := by
  have later (p : Source) (k : Nat) : f ((p.reverse ++ before).length + k) =
      g ((p.reverse ++ before').length + k) := by
    rw [length_reverse_append, length_reverse_append, Nat.add_assoc, Nat.add_assoc]
    exact hf _
  induction levels, before, s using scan_induction tag generalizing levels' before' with
  | close before s =>
    obtain rfl : levels' = [] := by simpa using hl.symm
    rw [error_nil_levels, error_nil_levels, scanFrom_nil_levels, scanFrom_nil_levels]
    exact ⟨rfl, rfl⟩
  | done levels before =>
    rw [error_nil_source, error_nil_source, scanFrom_nil_source, scanFrom_nil_source]
    exact ⟨endOfText_moved hl, rfl⟩
  | pass levels before b q t levels₁ hp ih =>
    have heq := hp.scanFrom_eq
    obtain ⟨n, hs, hn⟩ := hp
    obtain ⟨levels₂, hs', hl'⟩ := levelStep_moved htag hl hb (hf 0) hs
    have hp' : Passes tag levels' before' b q t levels₂ := ⟨n, hs', hn⟩
    rw [heq, hp'.scanFrom_eq]
    exact ih hl' (lastName_append_congr _ hb) (later _) fun p k => by
      rw [← List.append_assoc, ← List.append_assoc, ← List.reverse_append]
      exact later _ k
  | unterminated openedAt st before rest hc =>
    obtain ⟨openedAt', st', rfl⟩ := exists_template_of_moved hl
    rw [scanFrom_unterminated_eq hc, scanFrom_unterminated_eq hc]
    exact ⟨congrArg (some ∘ TemplateError.unterminatedExpression) (hf 0), rfl⟩
  | record openedAt st before text t hc ih =>
    obtain ⟨openedAt', st', rfl⟩ := exists_template_of_moved hl
    have hname : lastName ((inBraces text).reverse ++ before) =
        lastName ((inBraces text).reverse ++ before') := by
      rw [lastName_inBraces, lastName_inBraces]
    rw [scanFrom_record_eq hc, scanFrom_record_eq hc]
    obtain ⟨herror, htexts⟩ := ih hl hname (later _) fun p k => by
      rw [← List.append_assoc, ← List.append_assoc, ← List.reverse_append]
      exact later _ k
    exact ⟨herror, congrArg (text :: ·) htexts⟩

end Moved

theorem textsFrom?_congr {tag : Source} (htag : ∀ b ∈ tag, isIdentifierByte b)
    {levels levels' : List Level} {before before' s : Source}
    (hl : levels.map (Level.moved fun _ => 0) = levels'.map (Level.moved fun _ => 0))
    (hb : lastName before = lastName before') :
    textsFrom? tag levels before s = textsFrom? tag levels' before' s := by
  obtain ⟨herror, htexts⟩ := scanFrom_moved (s := s) htag hl hb fun _ => rfl
  rw [textsFrom?, textsFrom?, Scan.texts?, Scan.texts?, htexts]
  revert herror
  cases (scanFrom tag levels before s).error <;> cases (scanFrom tag levels' before' s).error <;>
    simp

def Scan.behind (es : List Expression) (s : Scan) : Scan :=
  { s with expressions := es ++ s.expressions }

theorem Scan.behind_behind (es fs : List Expression) (s : Scan) :
    (s.behind fs).behind es = s.behind (es ++ fs) :=
  congrArg (Scan.mk · s.ending) (List.append_assoc ..).symm

theorem Scan.texts?_behind (es : List Expression) (s : Scan) :
    (s.behind es).texts? = s.texts?.map (es.map (·.text) ++ ·) := by
  have he : (s.behind es).error = s.error := rfl
  rw [texts?, texts?, he]
  cases s.error with
  | none => simp [behind]
  | some err => rfl

/-- `Crosses tag p ts`: where code begins, a scan passes by the text `p`, in which it finds records of
the texts `ts`, and what follows is scanned as code that begins there. -/
def Crosses (tag p : Source) (ts : List Source) : Prop :=
  ∀ before, lastName before = [] → lastName (p.reverse ++ before) = [] ∧
    ∀ depth t, ∃ depth', ∃ es : List Expression, es.map (·.text) = ts ∧
      scanFrom tag [.code depth none] before (p ++ t) =
        (scanFrom tag [.code depth' none] (p.reverse ++ before) t).behind es

/-- `Carries tag p ts`: where code begins, a scan passes by the text `p`, in which it finds the
expressions `ts`, and what follows is code that begins there. -/
def Carries (tag p : Source) (ts : List Source) : Prop :=
  ∀ depth before, lastName before = [] → ∀ t,
    textsFrom? tag [.code depth none] before (p ++ t) = (texts? tag t).map (ts ++ ·)

section Crosses

variable {tag : Source}

theorem Carries.texts?_eq {p : Source} {ts : List Source} (h : Carries tag p ts) (t : Source) :
    texts? tag (p ++ t) = (texts? tag t).map (ts ++ ·) :=
  h 0 [] rfl t

theorem Crosses.nil : Crosses tag [] [] :=
  fun _ hb => ⟨hb, fun depth _ => ⟨depth, [], rfl, rfl⟩⟩

theorem Crosses.append {p q : Source} {ts us : List Source} (hp : Crosses tag p ts)
    (hq : Crosses tag q us) : Crosses tag (p ++ q) (ts ++ us) := by
  intro before hb
  obtain ⟨hb₁, hp⟩ := hp before hb
  obtain ⟨hb₂, hq⟩ := hq _ hb₁
  rw [List.reverse_append, List.append_assoc]
  refine ⟨hb₂, fun depth t => ?_⟩
  obtain ⟨depth₁, es, rfl, hes⟩ := hp depth (q ++ t)
  obtain ⟨depth₂, fs, rfl, hfs⟩ := hq depth₁ t
  refine ⟨depth₂, es ++ fs, List.map_append, ?_⟩
  rw [List.append_assoc, hes, hfs, Scan.behind_behind]

theorem exists_scanFrom_inert (tag : Source) {p : Source} (hp : ∀ b ∈ p, Inert b) (depth : Nat)
    (before t : Source) : ∃ depth', scanFrom tag [.code depth none] before (p ++ t) =
      scanFrom tag [.code depth' none] (p.reverse ++ before) t := by
  induction p generalizing depth before with
  | nil => exact ⟨depth, rfl⟩
  | cons b p ih =>
    obtain ⟨hb, hp⟩ := List.forall_mem_cons.1 hp
    obtain ⟨depth₁, hs⟩ := levelStep_base tag depth before hb (p ++ t).head?
    have hpass : Passes tag [.code depth none] before b [] (p ++ t) [.code depth₁ none] :=
      ⟨1, hs, .inl rfl⟩
    obtain ⟨depth', heq⟩ := ih hp depth₁ (b :: before)
    refine ⟨depth', ?_⟩
    rw [List.reverse_cons, List.append_assoc]
    exact hpass.scanFrom_eq.trans heq

theorem lastName_cons {b : UInt8} (h : isIdentifierByte b = false) (before : Source) :
    lastName (b :: before) = [] := by
  rw [lastName, List.takeWhile_cons_of_neg (by simp [h])]

theorem Crosses.of_inert {p : Source} {b : UInt8} (hp : ∀ c ∈ p, Inert c) (hb : Inert b)
    (hid : isIdentifierByte b = false) : Crosses tag (p ++ [b]) [] := by
  intro before _
  have hinert : ∀ c ∈ p ++ [b], Inert c := by
    simpa [or_imp, forall_and] using And.intro hp hb
  refine ⟨?_, fun depth t => ?_⟩
  · rw [List.reverse_append, List.reverse_singleton, List.singleton_append, List.cons_append]
    exact lastName_cons hid _
  · obtain ⟨depth', heq⟩ := exists_scanFrom_inert tag hinert depth before t
    exact ⟨depth', [], rfl, heq⟩

theorem closeFrom_singleton {frames : List Frame} {b : UInt8} {i : Nat}
    (h : frameStep frames b none ≠ .close) : closeFrom frames i [b] = none := by
  rw [closeFrom_cons, List.head?_nil]
  cases hs : frameStep frames b none with
  | close => exact absurd hs h
  | stop => rfl
  | pass n frames' =>
    have hpos : 0 < n := by rcases frameStep_pass hs with rfl | ⟨rfl, -⟩ <;> decide
    obtain ⟨n, rfl⟩ := Nat.exists_eq_succ_of_ne_zero (Nat.ne_of_gt hpos)
    simp only [Nat.succ_eq_add_one, List.drop_succ_cons, List.drop_nil, closeFrom_nil]

theorem exists_scan_of_closeFrom {k : Bracket} {levels : List Level} {frames : List Frame}
    {s : Source} (hl : Follows k levels frames) (before : Source) {i j : Nat}
    (h : closeFrom frames i s = some j) :
    ∃ p r ts, s = p ++ k.closing :: r ∧ j = i + p.length ∧
      ∀ t, ∃ depth', ∃ es : List Expression, es.map (·.text) = ts ∧
        scanFrom tag levels before (p ++ k.closing :: t) =
          (scanFrom tag [.code depth' none] (k.closing :: (p.reverse ++ before)) t).behind es := by
  induction levels, before, s using scan_induction tag generalizing frames i with
  | close before s => cases hl
  | done levels before =>
    rw [closeFrom_nil] at h
    cases h
  | pass levels before b q t levels' hp ih =>
    obtain ⟨n, hs, hn⟩ := hp
    by_cases hclose : frameStep frames b (q ++ t).head? = .close
    · obtain ⟨k', rfl, rfl⟩ := frameStep_eq_close_iff.1 hclose
      obtain ⟨depth, d, rfl, hk⟩ := hl.eq_base
      obtain ⟨rfl, rfl⟩ := Frame.code.inj hk
      rw [closeFrom_cons, hclose] at h
      have hinert : Inert k'.closing := by cases k' <;> decide
      refine ⟨[], q ++ t, [], rfl, (Option.some.inj h).symm, fun t => ?_⟩
      obtain ⟨depth', heq⟩ := exists_scanFrom_inert tag (p := [k'.closing])
        (by simpa using hinert) depth before t
      exact ⟨depth', [], rfl, heq⟩
    · cases hc : (q ++ t).head? with
      | none =>
        rw [hc] at hclose
        rw [List.head?_eq_none_iff.1 hc, closeFrom_singleton hclose] at h
        cases h
      | some c =>
        rw [closeFrom_cons, hc] at h
        rw [hc] at hs hclose
        rcases hl.step hs (c := c) rfl with hclose' | ⟨frames', hpass, hl'⟩
        · exact absurd hclose' hclose
        · rw [hpass] at h
          rcases hn with rfl | ⟨rfl, hn⟩
          · have hdrop : (b :: (q ++ t)).drop (q.length + 1) = t := by
              change (b :: q ++ t).drop (b :: q).length = t
              exact List.drop_left
            simp only [hdrop] at h
            obtain ⟨p, r, ts, rfl, rfl, hts⟩ := ih hl' h
            refine ⟨b :: (q ++ p), r, ts, by simp, by simp; omega, fun t => ?_⟩
            have hpass' : Passes tag levels before b q (p ++ k.closing :: t) levels' := by
              refine ⟨q.length + 1, ?_, .inl rfl⟩
              rw [← hs, ← hc]
              congr 1
              cases q with
              | cons a q => rfl
              | nil => cases p <;> rfl
            obtain ⟨depth', es, hes, heq⟩ := hts t
            refine ⟨depth', es, hes, ?_⟩
            rw [List.cons_append, List.append_assoc, hpass'.scanFrom_eq, heq]
            simp only [List.reverse_cons, List.reverse_append, List.append_assoc]
          · have hdrop : (b :: (q ++ [])).drop n = [] :=
              List.drop_of_length_le (by rw [List.append_nil]; exact hn)
            simp only [hdrop, closeFrom_nil] at h
            cases h
  | unterminated openedAt st before rest hc =>
    obtain ⟨frames, rfl⟩ := hl.template
    rw [closeFrom_unterminated hc] at h
    cases h
  | record openedAt st before text t hc ih =>
    obtain ⟨frames, rfl⟩ := hl.template
    rw [hc.closeFrom_inBraces] at h
    obtain ⟨p, r, ts, rfl, rfl, hts⟩ := ih hl h
    refine ⟨inBraces text ++ p, r, text :: ts, by simp, by simp; omega, fun t => ?_⟩
    obtain ⟨depth', es, rfl, heq⟩ := hts t
    refine ⟨depth', .closedAt before.length text :: es, rfl, ?_⟩
    rw [List.append_assoc, scanFrom_record_eq hc, heq, List.reverse_append, List.append_assoc]
    rfl

variable (htag : ∀ b ∈ tag, isIdentifierByte b)
include htag

theorem textsFrom?_base {depth : Nat} {before : Source} (hb : lastName before = []) (t : Source) :
    textsFrom? tag [.code depth none] before t = texts? tag t := by
  change _ = textsFrom? tag [.code 0 none] [] t
  exact textsFrom?_congr htag rfl hb

theorem Crosses.carries {p : Source} {ts : List Source} (h : Crosses tag p ts) :
    Carries tag p ts := by
  intro depth before hb t
  obtain ⟨hb', h⟩ := h before hb
  obtain ⟨depth', es, rfl, heq⟩ := h depth t
  rw [textsFrom?, heq, Scan.texts?_behind]
  exact congrArg (Option.map _) (textsFrom?_base htag hb' t)

theorem Bracket.crosses_of_split? {k : Bracket} {s inside rest : Source}
    (h : k.split? s = some (inside, rest)) :
    s = inside ++ k.closing :: rest ∧ ∃ ts, Crosses tag (inside ++ [k.closing]) ts := by
  obtain ⟨j, hj, heq⟩ := Option.map_eq_some_iff.1 h
  obtain ⟨rfl, rfl⟩ := Prod.mk.inj heq
  have hid : isIdentifierByte k.closing = false := by cases k <;> decide
  have hscan (depth : Nat) (before : Source) :=
    @exists_scan_of_closeFrom tag k _ _ s (.base depth 0) before _ _ hj
  obtain ⟨p, r, ts, rfl, rfl, hts⟩ := hscan 0 []
  have htake : (p ++ k.closing :: r).take (0 + p.length) = p := by
    rw [Nat.zero_add, List.take_left]
  have hdrop : (p ++ k.closing :: r).drop (0 + p.length + 1) = r := by
    rw [Nat.zero_add, ← List.singleton_append, ← List.append_assoc]
    exact List.drop_left' (by simp)
  rw [htake, hdrop]
  refine ⟨rfl, ts, fun before hb => ⟨?_, fun depth t => ?_⟩⟩
  · rw [List.reverse_append, List.reverse_singleton, List.singleton_append, List.cons_append]
    exact lastName_cons hid _
  · obtain ⟨p', r', ts', he, hlen, hts'⟩ := hscan depth before
    obtain ⟨rfl, -⟩ := List.append_inj he (by omega)
    obtain ⟨depth', es, hes, heq⟩ := hts' t
    refine ⟨depth', es, ?_, by simpa using heq⟩
    -- The texts do not depend on where the code begins.
    obtain ⟨_, fs, rfl, hbase⟩ := hts []
    obtain ⟨_, gs, hgs, hhere⟩ := hts' []
    have hend (es : List Expression) (depth : Nat) (before : Source) :
        ((scanFrom tag [.code depth none] before []).behind es).texts? =
          some (es.map (·.text)) := by
      rw [Scan.texts?_behind, scanFrom]
      simp [Scan.texts?, Scan.error, endOfText]
    have hsame : textsFrom? tag [.code depth none] before (p ++ [k.closing]) =
        textsFrom? tag [.code 0 none] [] (p ++ [k.closing]) := textsFrom?_base htag hb _
    rw [textsFrom?, textsFrom?, hhere, hbase, hend, hend] at hsame
    exact (hes.trans hgs.symm).trans (Option.some.inj hsame)

end Crosses

/-- Bytes that change nothing at the end of a text in which no template and no expression is left
open. -/
def Mild (b : UInt8) : Prop :=
  Inert b ∧ b ≠ Source.backslash ∧ b ≠ Source.star ∧ b ≠ Bracket.brace.opening

/-- Bytes that open nothing and close nothing, except for what ends with its line. -/
def Calm (b : UInt8) : Prop :=
  Mild b ∧ b ≠ Source.dollar ∧ b ≠ Bracket.brace.closing

instance (b : UInt8) : Decidable (Mild b) :=
  inferInstanceAs (Decidable (_ ∧ _ ∧ _ ∧ _))

instance (b : UInt8) : Decidable (Calm b) :=
  inferInstanceAs (Decidable (_ ∧ _ ∧ _))

theorem Mild.not_completesToken {b : UInt8} (h : Mild b) : ¬ completesToken b := by
  obtain ⟨⟨-, -, -, hslash⟩, -, hstar, hopening⟩ := h
  simp [completesToken, hslash, hstar, hopening]

section Ends

variable {tag : Source} {levels levels' : List Level} {before : Source}

theorem levelStep_mild (tag before : Source) {b : UInt8} (hb : Mild b) (hn : levels ≠ [])
    (he : endOfText levels = .complete) (next : Option UInt8) :
    ∃ levels', levelStep tag levels before b next = .pass 1 levels' ∧
      endOfText levels' = .complete := by
  obtain ⟨⟨h₁, h₂, h₃, h₄⟩, h₅, h₆, h₇⟩ := hb
  cases levels with
  | nil => exact absurd rfl hn
  | cons l st =>
    cases l with
    | code depth openedAt =>
      cases openedAt with
      | none => grind [levelStep, endOfText]
      | some i => cases he
    | template openedAt tagged => cases he
    | _ => grind [levelStep, endOfText]

theorem levelStep_calm (tag before : Source) {b : UInt8} (hb : Calm b) (hn : levels ≠ [])
    (next : Option UInt8) :
    ∃ levels', levelStep tag levels before b next = .pass 1 levels' ∧
      endOfText levels' = endOfText levels := by
  obtain ⟨⟨⟨h₁, h₂, h₃, h₄⟩, h₅, h₆, h₇⟩, h₈, h₉⟩ := hb
  cases levels with
  | nil => exact absurd rfl hn
  | cons l st => cases l <;> grind [levelStep, endOfText]

theorem textsFrom?_cons {b : UInt8} {r : Source} {n : Nat}
    (h : levelStep tag levels before b r.head? = .pass (n + 1) levels') :
    textsFrom? tag levels before (b :: r) =
      textsFrom? tag levels' (((b :: r).take (n + 1)).reverse ++ before) (r.drop n) :=
  congrArg Scan.texts? (scanFrom_cons tag levels before b r (n + 1) levels' h)

theorem textsFrom?_mild {p : Source} (hp : ∀ b ∈ p, Mild b) (he : endOfText levels = .complete) :
    textsFrom? tag levels before p = some [] := by
  induction p generalizing levels before with
  | nil => rw [textsFrom?_nil, if_pos he]
  | cons b p ih =>
    obtain ⟨hb, hp⟩ := List.forall_mem_cons.1 hp
    by_cases hn : levels = []
    · rw [hn, textsFrom?_nil_levels]
    · obtain ⟨levels', hs, he'⟩ := levelStep_mild tag before hb hn he p.head?
      rw [textsFrom?_cons hs]
      exact ih hp he'

theorem textsFrom?_calm {p : Source} (hp : ∀ b ∈ p, Calm b) :
    textsFrom? tag levels before p = if endOfText levels = .complete then some [] else none := by
  induction p generalizing levels before with
  | nil => exact textsFrom?_nil
  | cons b p ih =>
    obtain ⟨hb, hp⟩ := List.forall_mem_cons.1 hp
    by_cases hn : levels = []
    · subst hn
      exact textsFrom?_nil_levels before _
    · obtain ⟨levels', hs, he⟩ := levelStep_calm tag before hb hn p.head?
      rw [textsFrom?_cons hs, ← he]
      exact ih hp

theorem levelStep_congr_next {b c : UInt8} (hc : ¬ completesToken c) :
    levelStep tag levels before b (some c) = levelStep tag levels before b none := by
  simp only [completesToken, not_or] at hc
  cases levels with
  | nil => rfl
  | cons l st => cases l <;> simp [levelStep, hc]

theorem levelStep_append_mild {b : UInt8} {r p : Source} (hp : ∀ c ∈ p, Mild c) :
    levelStep tag levels before b (r ++ p).head? = levelStep tag levels before b r.head? := by
  cases r with
  | cons c r => rfl
  | nil =>
    cases p with
    | nil => rfl
    | cons c p => exact levelStep_congr_next (hp c List.mem_cons_self).not_completesToken

/-- What is not closed is not closed by text without the closing bracket either. -/
theorem Bracket.close?_append_eq_none {k : Bracket} {s p : Source} (h : k.close? s = none)
    (hp : k.closing ∉ p) : k.close? (s ++ p) = none := by
  cases hc : k.close? (s ++ p) with
  | none => rfl
  | some j =>
    have hb : Based k [.code k 0] := .inl ⟨rfl, rfl⟩
    obtain ⟨q, t, heq, -, hw⟩ := walks_of_closeFrom hb hc
    rcases List.append_eq_append_iff.1 heq with ⟨a, rfl, hpa⟩ | ⟨a, rfl, ha⟩
    · exact absurd (hpa ▸ List.mem_append_right a List.mem_cons_self) hp
    · cases a with
      | nil =>
        rw [List.nil_append] at ha
        exact absurd (ha ▸ List.mem_cons_self) hp
      | cons c a =>
        obtain ⟨rfl, -⟩ := List.cons.inj ha
        have hclose := hw.closeFrom_append (t := k.closing :: a) 0
        rw [closeFrom_cons, frameStep_eq_close_iff.2 ⟨k, rfl, rfl⟩] at hclose
        exact absurd (h.symm.trans hclose) (by simp)

/-- White space and semicolons at the end of a text may be taken off, and the closing of a block may
be put in their place: where nothing is left open, all the same is found. -/
theorem textsFrom?_append_mild {p tail tail' : Source} (hcalm : ∀ b ∈ tail, Calm b)
    (hmild : ∀ b ∈ tail', Mild b) {ts : List Source}
    (h : textsFrom? tag levels before (p ++ tail) = some ts) :
    textsFrom? tag levels before (p ++ tail') = some ts := by
  have ends {levels : List Level} {before before' u u' : Source} {ts : List Source}
      (hu : ∀ b ∈ u, Calm b) (hu' : ∀ b ∈ u', Mild b)
      (h : textsFrom? tag levels before u = some ts) :
      textsFrom? tag levels before' u' = some ts := by
    rw [textsFrom?_calm hu] at h
    split at h
    · next he =>
      cases h
      exact textsFrom?_mild hu' he
    · cases h
  induction levels, before, p using scan_induction tag generalizing ts with
  | close before s =>
    rw [textsFrom?_nil_levels] at h ⊢
    exact h
  | done levels before => exact ends hcalm hmild h
  | pass levels before b q t levels' hp ih =>
    obtain ⟨n, hs, hn⟩ := hp
    have hle := levelStep_pass_le hs
    have hstep {u : Source} (hu : ∀ c ∈ u, Mild c) :
        levelStep tag levels before b (q ++ t ++ u).head? = .pass n levels' :=
      (levelStep_append_mild hu).trans hs
    have htail := hstep fun b hb => (hcalm b hb).1
    have htail' := hstep hmild
    by_cases hq : n = q.length + 1
    · have hpass {u : Source} (hu : levelStep tag levels before b (q ++ t ++ u).head? =
          .pass n levels') : Passes tag levels before b q (t ++ u) levels' :=
        ⟨n, by rwa [← List.append_assoc], .inl hq⟩
      rw [List.cons_append, List.append_assoc] at h ⊢
      rw [(hpass htail).textsFrom?_eq] at h
      rw [(hpass htail').textsFrom?_eq]
      exact ih h
    · -- The last byte of the text escapes the first one of what follows.
      obtain ⟨rfl, hlt⟩ := hn.resolve_left hq
      obtain rfl : q = [] := List.length_eq_zero_iff.1 (by omega)
      obtain rfl : n = 1 + 1 := by
        rw [List.length_nil] at hq hlt
        omega
      have h' : textsFrom? tag levels' _ (tail.drop 1) = some ts := (textsFrom?_cons htail).symm.trans h
      refine (textsFrom?_cons htail').trans ?_
      exact ends (fun b hb => hcalm b (List.mem_of_mem_drop hb))
        (fun b hb => hmild b (List.mem_of_mem_drop hb)) h'
  | unterminated openedAt st before rest hc =>
    have hnone : Bracket.brace.close? (rest ++ tail) = none :=
      Bracket.close?_append_eq_none hc fun hm => (hcalm _ hm).2.2 rfl
    rw [List.cons_append, List.cons_append, textsFrom?_unterminated hnone] at h
    cases h
  | record openedAt st before text t hc ih =>
    rw [List.append_assoc, textsFrom?_record hc] at h ⊢
    obtain ⟨us, hus, rfl⟩ := Option.map_eq_some_iff.1 h
    rw [ih hus, Option.map_some]

end Ends

end Reactivity.Template
