import Reactivity.Proofs.Isolation.Rescan

namespace Reactivity.Template

/-- The expression inside a call of the isolating function that isolation writes. -/
def unwrapped? (o : Options) (text : Source) : Option Source := do
  let rest ← dropPrefix? (wrapperOpening o) text
  let inner ← dropPrefix? wrapperClosing.reverse rest.reverse
  return inner.reverse

theorem unwrapped?_eq_some_iff {o : Options} {text x : Source} :
    unwrapped? o text = some x ↔ text = wrapperOpening o ++ x ++ wrapperClosing := by
  constructor
  · intro h
    obtain ⟨rest, hrest, h⟩ := Option.bind_eq_some_iff.1 h
    obtain ⟨inner, hinner, h⟩ := Option.bind_eq_some_iff.1 h
    cases h
    have hr : rest = inner.reverse ++ wrapperClosing := by
      rw [← List.reverse_inj, dropPrefix?_eq_some_iff.1 hinner, List.reverse_append,
        List.reverse_reverse]
    rw [dropPrefix?_eq_some_iff.1 hrest, hr, List.append_assoc]
  · rintro rfl
    have hrest : dropPrefix? (wrapperOpening o) (wrapperOpening o ++ x ++ wrapperClosing) =
        some (x ++ wrapperClosing) := dropPrefix?_eq_some_iff.2 (List.append_assoc ..)
    have hinner : dropPrefix? wrapperClosing.reverse (x ++ wrapperClosing).reverse =
        some x.reverse := dropPrefix?_eq_some_iff.2 List.reverse_append
    rw [unwrapped?, hrest]
    simp only [Option.bind_eq_bind, Option.bind_some, hinner, List.reverse_reverse]
    rfl

/-- Strips the calls of the isolating function that isolation writes, from the last record to the
first and inside of each. -/
def unwrap (o : Options) (s : Source) : Source :=
  (scan o.tag s).expressions.attach.foldr
    (fun e out =>
      match _h : unwrapped? o e.1.text with
      | some x => splice e.1.start e.1.stop (inBraces (unwrap o x)) out
      | none => out) s
termination_by s.length
decreasing_by
  have hlt := scanFrom_text_length_lt _ _ _ _ _ e.2
  have := congrArg List.length (unwrapped?_eq_some_iff.1 _h)
  simp only [List.length_append] at this
  omega

/-- The records that isolation comes to: those of the source, and those inside the expressions it
isolates. -/
inductive Visits (o : Options) : Source → Expression → Prop
  | here {s : Source} {e : Expression} (h : e ∈ (scan o.tag s).expressions) : Visits o s e
  | inside {s : Source} {e e' : Expression} (h : e ∈ (scan o.tag s).expressions)
      (ordinary : e.isOrdinary o) (h' : Visits o e.text e') : Visits o s e'

/-- What isolation writes for a record, given what it makes of the expression. -/
def wrapping (o : Options) (inner : Source → Source) (e : Expression) : Option Source :=
  if e.isOrdinary o then
    some (inBraces (wrapperOpening o ++ inner e.text ++ wrapperClosing))
  else none

def unwrapping (o : Options) (e : Expression) : Option Source :=
  (unwrapped? o e.text).map fun x => inBraces (unwrap o x)

theorem scan_located (tag s : Source) : Located 0 (scan tag s).expressions s :=
  scanFrom_located tag [.code 0 none] [] s

def replaceRecord (f : Expression → Option Source) (e : Expression) (out : Source) : Source :=
  match f e with
  | some t => splice e.start e.stop t out
  | none => out

theorem foldr_replaceRecord (f : Expression → Option Source) (tag s : Source) :
    (scan tag s).expressions.attach.foldr (fun e => replaceRecord f e.1) s =
      edited f 0 (scan tag s).expressions s := by
  rw [List.foldr_attach (f := replaceRecord f)]
  exact foldr_splice [] (scan_located tag s)

theorem unwrap_eq_edited (o : Options) (s : Source) :
    unwrap o s = edited (unwrapping o) 0 (scan o.tag s).expressions s := by
  rw [unwrap, ← foldr_replaceRecord]
  congr 1
  funext e out
  cases h : unwrapped? o e.1.text <;> simp only [replaceRecord, unwrapping, h] <;> split <;>
    simp_all

def isolated (o : Options) (s : Source) : Source :=
  (isolate o s).toOption.getD s

theorem foldrM_eq_ok {α β ε : Type} {g : α → β → Except ε β} {h : α → β → β} {l : List α}
    (hg : ∀ a ∈ l, ∀ b, g a b = .ok (h a b)) (b : β) : l.foldrM g b = .ok (l.foldr h b) := by
  induction l with
  | nil => rfl
  | cons a l ih =>
    rw [List.foldrM_cons, ih fun c hc => hg c (List.mem_cons_of_mem _ hc), List.foldr_cons]
    exact hg a (List.mem_cons_self ..) _

/-- A source that is not refused is isolated by editing its records, if the expressions in it are
isolated. -/
theorem isolate_of_inside {o : Options} {s : Source} (hr : (scan o.tag s).refusal o = none)
    (inside : ∀ e ∈ (scan o.tag s).expressions, e.isOrdinary o →
      isolate o e.text = .ok (isolated o e.text)) :
    isolate o s = .ok (edited (wrapping o (isolated o)) 0 (scan o.tag s).expressions s) := by
  rw [isolate, hr]
  simp only
  rw [foldrM_eq_ok (h := fun e => replaceRecord (wrapping o (isolated o)) e.1),
    foldr_replaceRecord]
  intro e _ out
  cases h : e.1.isOrdinary o with
  | false => simp [replaceRecord, wrapping, h]
  | true =>
    simp only [replaceRecord, wrapping, h, if_true, inside e.1 e.2 h]
    rfl

theorem isolate_eq_edited {o : Options} (ho : o.strict = false) (s : Source) :
    isolate o s = .ok (edited (wrapping o (isolated o)) 0 (scan o.tag s).expressions s) := by
  have hr : (scan o.tag s).refusal o = none := by simp [Scan.refusal, ho]
  refine isolate_of_inside hr fun e he _ => ?_
  have hlt : e.text.length < s.length := scanFrom_text_length_lt _ _ _ _ _ he
  rw [isolated, isolate_eq_edited ho]
  rfl
termination_by s.length

theorem isolate_eq_ok {o : Options} (ho : o.strict = false) (s : Source) :
    isolate o s = .ok (isolated o s) := by
  rw [isolated, isolate_eq_edited ho]
  rfl

theorem isolated_eq_edited {o : Options} (ho : o.strict = false) (s : Source) :
    isolated o s = edited (wrapping o (isolated o)) 0 (scan o.tag s).expressions s := by
  rw [isolated, isolate_eq_edited ho]
  rfl

theorem isPlain_wrapperOpening {o : Options} (hi : ∀ b ∈ o.isolator, isIdentifierByte b) :
    ∀ b ∈ wrapperOpening o, IsPlain b := by
  have hcall : (Source.ofString "(() => (").all (IsPlain ·) := by decide
  intro b hb
  rcases List.mem_append.1 hb with h | h
  · exact isPlain_of_isIdentifierByte (hi b h)
  · exact of_decide_eq_true (List.all_eq_true.1 hcall b h)

theorem isPlain_wrapperClosing : ∀ b ∈ wrapperClosing, IsPlain b ∧ b ≠ Source.star := by
  have hclosing : wrapperClosing.all fun b => IsPlain b ∧ b ≠ Source.star := by decide
  intro b hb
  exact of_decide_eq_true (List.all_eq_true.1 hclosing b hb)

theorem Expression.isOrdinary_terminated {o : Options} {e : Expression} (h : e.isOrdinary o) :
    e.terminated :=
  (Bool.and_eq_true _ _ ▸ h).1

theorem keepsClosed_wrapping {o : Options} (hi : ∀ b ∈ o.isolator, isIdentifierByte b)
    {inner : Source → Source} {e : Expression} (h : Closed e.text → Closed (inner e.text)) :
    KeepsClosed (wrapping o inner) e := by
  intro t ht
  cases ho : e.isOrdinary o with
  | false => simp [wrapping, ho] at ht
  | true =>
    simp only [wrapping, ho, if_true, Option.some.injEq] at ht
    exact ⟨e.isOrdinary_terminated ho, _, ht.symm, fun hc =>
      (h hc).surround (isPlain_wrapperOpening hi) isPlain_wrapperClosing⟩

theorem Closed.isolated {o : Options} (ho : o.strict = false)
    (hi : ∀ b ∈ o.isolator, isIdentifierByte b) {s : Source} (h : Closed s) :
    Closed (isolated o s) := by
  rw [isolated_eq_edited ho]
  refine h.edited fun e he => ?_
  have hlt : e.text.length < s.length := scanFrom_text_length_lt _ _ _ _ _ he
  exact keepsClosed_wrapping hi fun hc => hc.isolated ho hi
termination_by s.length

theorem inBraces_inj {x y : Source} (h : inBraces x = inBraces y) : x = y :=
  List.append_cancel_right (List.cons.inj (List.cons.inj h).2).2

theorem putsBack_unwrapping {o : Options} {inner : Source → Source} {e : Expression}
    (h : e.isOrdinary o → unwrap o (inner e.text) = e.text)
    (hn : ¬ wrapperOpening o <+: e.text) :
    PutsBack (wrapping o inner) (unwrapping o) e := by
  cases ho : e.isOrdinary o with
  | false =>
    simp only [PutsBack, wrapping, ho]
    intro e' he
    cases hu : unwrapped? o e'.text with
    | none => simp [unwrapping, hu]
    | some x =>
      rw [he] at hu
      exact absurd ⟨x ++ wrapperClosing, by rw [unwrapped?_eq_some_iff.1 hu, List.append_assoc]⟩ hn
  | true =>
    simp only [PutsBack, wrapping, ho, if_true]
    intro e' ht he
    have ht' : e'.text = wrapperOpening o ++ inner e.text ++ wrapperClosing :=
      inBraces_inj (source_of_terminated ht ▸ he)
    rw [unwrapping, unwrapped?_eq_some_iff.2 ht', Option.map_some, h ho,
      source_of_terminated (e.isOrdinary_terminated ho)]

/-- Isolation is undone by stripping the calls that it writes, if none of the expressions it comes
to begins like such a call. -/
theorem unwrap_isolated {o : Options} (ho : o.strict = false)
    (htag : ∀ b ∈ o.tag, isIdentifierByte b) (hi : ∀ b ∈ o.isolator, isIdentifierByte b)
    {s : Source} (hs : ∀ e, Visits o s e → ¬ wrapperOpening o <+: e.text) :
    unwrap o (isolated o s) = s := by
  have hkeep : ∀ e ∈ (scan o.tag s).expressions, KeepsClosed (wrapping o (isolated o)) e :=
    fun e _ => keepsClosed_wrapping hi fun hc => hc.isolated ho hi
  have hback : ∀ e ∈ (scan o.tag s).expressions,
      PutsBack (wrapping o (isolated o)) (unwrapping o) e := by
    intro e he
    have hlt : e.text.length < s.length := scanFrom_text_length_lt _ _ _ _ _ he
    refine putsBack_unwrapping (fun hord => ?_) (hs e (.here he))
    exact unwrap_isolated ho htag hi fun e' he' => hs e' (.inside he hord he')
  rw [unwrap_eq_edited, isolated_eq_edited ho]
  exact edited_edited htag [.code 0 none] [.code 0 none] [] [] s rfl rfl hkeep hback
termination_by s.length

/-- The source that the isolation of a function works on: the normal form, or the text as it stands
if it is no function. -/
def isolationInput (source : Source) : Source :=
  match normalForm source with
  | .ok s => s
  | .error _ => source

theorem isolateFunction_eq_ok {o : Options} (ho : o.strict = false) (source : Source) :
    isolateFunction o source = .ok (isolated o (isolationInput source)) := by
  rw [isolateFunction, isolationInput]
  cases normalForm source <;> simp [ho, isolate_eq_ok]

/-- With lenient options, and names made of identifier bytes, isolation always succeeds and is
undone by stripping: of a source, and of a function in its normal form. -/
theorem isolation_undone {o : Options} (ho : o.strict = false)
    (htag : ∀ b ∈ o.tag, isIdentifierByte b) (hi : ∀ b ∈ o.isolator, isIdentifierByte b) :
    (∀ s, (∀ e, Visits o s e → ¬ wrapperOpening o <+: e.text) →
      ∃ t, isolate o s = .ok t ∧ unwrap o t = s) ∧
    (∀ source, (∀ e, Visits o (isolationInput source) e → ¬ wrapperOpening o <+: e.text) →
      ∃ t, isolateFunction o source = .ok t ∧ unwrap o t = isolationInput source) :=
  ⟨fun s hs => ⟨_, isolate_eq_ok ho s, unwrap_isolated ho htag hi hs⟩,
    fun source hs => ⟨_, isolateFunction_eq_ok ho source, unwrap_isolated ho htag hi hs⟩⟩

theorem isolation_undone_standard :
    ∃ t, isolate Options.standard (Source.ofString "html`${a}`") = .ok t ∧
      unwrap Options.standard t = Source.ofString "html`${a}`" := by
  have htag : ∀ b ∈ Options.standard.tag, isIdentifierByte b := List.all_eq_true.1 (by decide)
  have hi : ∀ b ∈ Options.standard.isolator, isIdentifierByte b := List.all_eq_true.1 (by decide)
  refine (isolation_undone rfl htag hi).1 _ fun e he => ?_
  have hs : Source.ofString "html`${a}`" =
      [0x68, 0x74, 0x6D, 0x6C, 0x60, 0x24, 0x7B, 0x61, 0x7D, 0x60] := by decide
  have ha : Source.ofString "a" = [0x61] := by decide
  have ht : endsWithTag Options.standard.tag [0x6C, 0x6D, 0x74, 0x68] := by decide
  have hc : Bracket.brace.close? [0x61, 0x7D, 0x60] = some 1 := by decide
  have hscan : (scan Options.standard.tag (Source.ofString "html`${a}`")).expressions =
      [⟨5, 9, Source.ofString "a", true⟩] := by
    simp [hs, ha, ht, hc, scan, scanFrom, Scan.cons, Bracket.opening, Source.doubleQuote,
      Source.singleQuote, Source.backtick, Source.slash, Source.dollar, Source.backslash]
  have hinside : (scan Options.standard.tag (Source.ofString "a")).expressions = [] := by
    simp [ha, scan, scanFrom, Bracket.opening, Bracket.closing, Source.doubleQuote,
      Source.singleQuote, Source.backtick, Source.slash]
  cases he with
  | here h =>
    obtain rfl : e = ⟨5, 9, Source.ofString "a", true⟩ := by simpa [hscan] using h
    decide
  | @inside _ e' _ h _ h' =>
    obtain rfl : e' = ⟨5, 9, Source.ofString "a", true⟩ := by simpa [hscan] using h
    cases h' with
    | here h => simp [hinside] at h
    | inside h => simp [hinside] at h

end Reactivity.Template
