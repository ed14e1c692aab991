import Reactivity.Proofs.Isolation.Normal
import Mathlib.Data.List.Forall2

namespace Reactivity.Template

/-- The record `e'` of an edited text stands for the record `e` of the text. -/
structure StandsFor (f : Expression → Option Source) (e e' : Expression) : Prop where
  terminated : e'.terminated = e.terminated
  source : e'.source = (f e).getD e.source

theorem error_endOfText {levels levels' : List Level}
    (h : levels.map Level.unplaced = levels'.map Level.unplaced) :
    (Scan.mk [] (endOfText levels')).error.isNone = (Scan.mk [] (endOfText levels)).error.isNone := by
  induction levels generalizing levels' with
  | nil =>
    obtain rfl : levels' = [] := by simpa using h.symm
    rfl
  | cons l st ih =>
    cases levels' with
    | nil => cases h
    | cons l' st' =>
      obtain ⟨hl, hst⟩ := List.cons.inj h
      cases l with
      | code depth openedAt =>
        cases l' with
        | code depth' openedAt' =>
          cases openedAt <;> cases openedAt' <;> simp_all [Level.unplaced, endOfText, Scan.error]
        | _ => cases hl
      | template openedAt tagged =>
        cases l' with
        | template openedAt' tagged' => rfl
        | _ => cases hl
      | quoted q =>
        cases l' with
        | quoted q' =>
          rw [endOfText, endOfText]
          exact ih hst
        | _ => cases hl
      | lineComment =>
        cases l' with
        | lineComment =>
          rw [endOfText, endOfText]
          exact ih hst
        | _ => cases hl
      | blockComment =>
        cases l' with
        | blockComment =>
          rw [endOfText, endOfText]
          exact ih hst
        | _ => cases hl

/-- A scan of an edited text finds a record for each one of the text, and leaves something open if
that of the text does. -/
theorem scanFrom_edited {f : Expression → Option Source} {tag : Source} (hf : Keeps f)
    (htag : ∀ b ∈ tag, isIdentifierByte b) (levels levels' : List Level) (before before' s : Source)
    (hl : levels.map Level.unplaced = levels'.map Level.unplaced)
    (hb : lastName before = lastName before') :
    let s' := edited f before.length (scanFrom tag levels before s).expressions s
    List.Forall₂ (StandsFor f) (scanFrom tag levels before s).expressions
        (scanFrom tag levels' before' s').expressions ∧
      (scanFrom tag levels' before' s').error.isNone =
        (scanFrom tag levels before s).error.isNone := by
  induction levels, before, s using scan_induction tag generalizing levels' before' with
  | close before s =>
    obtain rfl : levels' = [] := by simpa using hl.symm
    simp only [scanFrom_nil_levels, edited, List.Forall₂.nil, true_and]
    cases s <;> simp only [scanFrom, Scan.error]
  | done levels before =>
    simp only [scanFrom_nil_source, edited, List.Forall₂.nil, true_and]
    have h := error_endOfText hl
    cases levels with
    | nil =>
      obtain rfl : levels' = [] := by simpa using hl.symm
      simp only [scanFrom, Scan.error]
    | cons l st =>
      cases levels' with
      | nil => cases hl
      | cons l' st' => rwa [scanFrom, scanFrom]
  | pass levels before b q t levels₁ hp ih =>
    have hlo := scanFrom_located tag levels₁ ((b :: q).reverse ++ before) t
    rw [hp.scanFrom_eq]
    obtain ⟨n, hs, hn⟩ := hp
    obtain ⟨levels₂, hs', hl'⟩ := levelStep_congr htag hl hb hs
    have ht := edited_head? (fun e _ => hf e) hlo
    have ih := ih levels₂ ((b :: q).reverse ++ before') hl' (lastName_append_congr _ hb)
    rw [length_reverse_append] at hlo ht ih
    rw [← List.cons_append, edited_append hlo, List.cons_append]
    generalize edited f (before.length + (b :: q).length) _ t = u at ht ih
    have hp' : Passes tag levels' before' b q u levels₂ := by
      refine ⟨n, by rwa [head?_append_congr ht], ?_⟩
      rcases hn with hn | ⟨rfl, hn⟩
      · exact .inl hn
      · exact .inr ⟨List.head?_eq_none_iff.1 ht, hn⟩
    simp only at ih ⊢
    rwa [hp'.scanFrom_eq]
  | unterminated openedAt st before rest hc =>
    obtain ⟨openedAt', st', rfl⟩ := exists_template_of_unplaced hl
    have hn := hf.openAt before.length rest
    rw [scanFrom_unterminated_eq hc]
    simp only
    rw [edited_openAt hn, scanFrom_unterminated_eq hc]
    refine ⟨.cons ⟨rfl, ?_⟩ .nil, rfl⟩
    rw [hn]
    rfl
  | record openedAt st before text t hc ih =>
    obtain ⟨openedAt', st', rfl⟩ := exists_template_of_unplaced hl
    obtain ⟨w, hw, hcw⟩ := hf.closedAt before.length hc
    have ih := ih (.template openedAt' true :: st') ((inBraces w).reverse ++ before') hl
      (by rw [lastName_inBraces, lastName_inBraces])
    rw [length_reverse_append] at ih
    rw [scanFrom_record_eq hc]
    simp only [Scan.cons] at ih ⊢
    rw [edited_closedAt, hw, scanFrom_record_eq hcw]
    refine ⟨.cons ⟨rfl, ?_⟩ ih.1, ih.2⟩
    exact hw.symm

def raise : List Frame → List Frame
  | [] => []
  | [.code k d] => [.code k (d + 1)]
  | f :: fs => f :: raise fs

theorem raise_cons_cons (f g : Frame) (fs : List Frame) :
    raise (f :: g :: fs) = f :: raise (g :: fs) := by
  cases f <;> rfl

theorem raise_ne_nil (f : Frame) (fs : List Frame) : raise (f :: fs) ≠ [] := by
  cases fs with
  | nil => cases f <;> exact List.cons_ne_nil _ _
  | cons g fs =>
    rw [raise_cons_cons]
    exact List.cons_ne_nil _ _

theorem frameStep_raise {k : Bracket} {fs fs' : List Frame} {b : UInt8} {next : Option UInt8}
    {n : Nat} (hb : Based k fs) (h : frameStep fs b next = .pass n fs') :
    frameStep (raise fs) b next = .pass n (raise fs') := by
  cases fs with
  | nil => cases hb
  | cons f st =>
    cases st with
    | nil =>
      cases f with
      | code k' d => cases d <;> grind [frameStep, raise]
      | _ => cases hb
    | cons g st =>
      obtain ⟨g', st', hg⟩ := List.exists_cons_of_ne_nil (raise_ne_nil g st)
      rw [raise_cons_cons, hg]
      cases f with
      | code k' d => cases d <;> grind [frameStep, raise_cons_cons]
      | template => grind [frameStep, raise_cons_cons]
      | quoted q => grind [frameStep, raise_cons_cons]
      | lineComment => grind [frameStep, raise_cons_cons]
      | blockComment => grind [frameStep, raise_cons_cons]

theorem Walks.raise {k : Bracket} {fs fs' : List Frame} {p : Source} {next : Option UInt8}
    (hb : Based k fs) (h : Walks fs p next fs') : Walks (raise fs) p next (raise fs') := by
  induction h with
  | refl => exact .refl _ _
  | pass step rest ih => exact .pass (frameStep_raise hb step) (ih (hb.step step))

/-- Text in which parentheses are balanced, for the search for a closing one. -/
def Balanced (s : Source) : Prop :=
  Bracket.paren.close? (s ++ [Bracket.paren.closing]) = some s.length

instance (s : Source) : Decidable (Balanced s) :=
  inferInstanceAs (Decidable (_ = _))

theorem Balanced.walks {s : Source} (h : Balanced s) :
    Walks [.code .paren 0] s (some Bracket.paren.closing) [.code .paren 0] :=
  Bracket.Balances.walks h

/-- A call of the isolating function on a function that returns an expression. -/
def wrapped (o : Options) (inner : Source) : Source :=
  wrapperOpening o ++ inner ++ wrapperClosing

theorem wrapped_eq (o : Options) (inner : Source) :
    wrapped o inner = o.isolator ++ (Bracket.paren.opening ::
      ([0x28, 0x29, 0x20, 0x3D, 0x3E, 0x20, 0x28] ++ (inner ++ [0x29, 0x29]))) := by
  have hopening : Source.ofString "(() => (" = [0x28, 0x28, 0x29, 0x20, 0x3D, 0x3E, 0x20, 0x28] := by
    decide
  have hclosing : Source.ofString "))" = [0x29, 0x29] := by decide
  simp only [wrapped, wrapperOpening, wrapperClosing, hopening, hclosing, List.append_assoc,
    List.cons_append, List.nil_append, Bracket.opening]

theorem trim_wrapped {o : Options} (hblank : dropBlank? o.isolator = none)
    (inner : Source) : trim (wrapped o inner) = wrapped o inner := by
  refine trim_of_ends (p := wrapperOpening o ++ inner ++ [0x29]) (b := 0x29) ?_ (by decide) ?_
  · rw [wrapped_eq]
    refine dropBlank?_eq_none_iff.2 fun w hw hp => ?_
    rcases List.prefix_or_prefix_of_prefix hp (List.prefix_append _ _) with hp' | ⟨v, hv⟩
    · exact dropBlank?_eq_none_iff.1 hblank w hw hp'
    · subst hv
      obtain ⟨r, hr⟩ := hp
      rw [List.append_assoc, List.append_cancel_left_eq] at hr
      cases v with
      | nil =>
        rw [List.append_nil] at hw
        exact dropBlank?_eq_none_iff.1 hblank _ hw (List.prefix_refl _)
      | cons c v =>
        obtain ⟨rfl, -⟩ := List.cons.inj hr
        exact IsSolid.notMem_blank (by decide) hw (List.mem_append_right _ (List.mem_cons_self ..))
  · have hclosing : wrapperClosing = [0x29, 0x29] := by decide
    rw [wrapped, hclosing, List.append_assoc, List.append_assoc, List.append_assoc]
    rfl

theorem walks_function (next : Option UInt8) :
    Walks [.code .paren 0] [0x28, 0x29, 0x20, 0x3D, 0x3E, 0x20, 0x28] next [.code .paren 1] := by
  have step {d : Nat} (c : Nat) {b : UInt8} {r : Source}
      (hs : ∀ next, frameStep [.code .paren d] b next = .pass 1 [.code .paren c])
      (h : Walks [.code .paren c] r next [.code .paren 1]) :
      Walks [.code .paren d] (b :: r) next [.code .paren 1] := .pass (q := []) (hs _) h
  exact step 1 (fun _ => rfl) <| step 0 (fun _ => rfl) <| step 0 (fun _ => rfl) <|
    step 0 (fun _ => rfl) <| step 0 (fun _ => rfl) <| step 0 (fun _ => rfl) <|
    step 1 (fun _ => rfl) (.refl _ _)

theorem closesAtEnd_wrapped {inner : Source}
    (h : Walks [.code .paren 0] inner (some Bracket.paren.closing) [.code .paren 0]) :
    Bracket.paren.closesAtEnd
      ([0x28, 0x29, 0x20, 0x3D, 0x3E, 0x20, 0x28] ++ (inner ++ [0x29, 0x29])) := by
  have hb : Based .paren [.code .paren 0] := .inl ⟨rfl, rfl⟩
  have hopening := (walks_function _).closeFrom_append (t := inner ++ [0x29, 0x29]) 0
  have hinner := (h.raise hb).closeFrom_append (t := [0x29, 0x29]) 7
  have hclosing (i : Nat) : closeFrom [.code .paren 1] i [0x29, 0x29] = some (i + 1) := by
    rw [closeFrom_cons]
    rfl
  have hclose : Bracket.paren.close?
      ([0x28, 0x29, 0x20, 0x3D, 0x3E, 0x20, 0x28] ++ (inner ++ [0x29, 0x29])) =
        some (7 + inner.length + 1) :=
    (hopening.trans hinner).trans (hclosing _)
  rw [Bracket.closesAtEnd, hclose]
  simp only [Option.map_some, List.length_append, List.length_cons, List.length_nil, beq_iff_eq,
    Option.some.injEq]
  omega

theorem shape_wrapped {o : Options} (hi : o.isolator ≠ []) (hblank : dropBlank? o.isolator = none)
    {inner : Source}
    (h : Walks [.code .paren 0] inner (some Bracket.paren.closing) [.code .paren 0]) :
    Shape.of o (wrapped o inner) = .isolated := by
  have hne : wrapped o inner ≠ [] := by
    rw [wrapped_eq]
    exact List.append_ne_nil_of_left_ne_nil hi _
  have hcall : isCallOf o.isolator (wrapped o inner) := by
    rw [wrapped_eq]
    cases hname : o.isolator with
    | nil => exact absurd hname hi
    | cons c name =>
      rw [isCallOf.eq_def, dropPrefix?_eq_some_iff.2 rfl]
      have hstart (s : Source) : trimStart (Bracket.paren.opening :: s) = Bracket.paren.opening :: s :=
        trimStart_of_dropBlank? (dropBlank?_solid (by decide) s)
      simp only [hstart, closesAtEnd_wrapped h, beq_self_eq_true, Bool.and_self]
  simp only [Shape.of, trim_wrapped hblank, hne, if_false, hcall, if_true]

def Options.lenient (o : Options) : Options :=
  { o with strict := false }

theorem foldrM_eq_ok_mono {α β ε : Type} {g h : α → β → Except ε β} {l : List α}
    (hgh : ∀ a ∈ l, ∀ b c, g a b = .ok c → h a b = .ok c) {b c : β} (hb : l.foldrM g b = .ok c) :
    l.foldrM h b = .ok c := by
  induction l generalizing c with
  | nil => exact hb
  | cons a l ih =>
    rw [List.foldrM_cons] at hb ⊢
    cases hl : l.foldrM g b with
    | error e =>
      rw [hl] at hb
      cases hb
    | ok d =>
      rw [hl] at hb
      rw [ih (fun x hx => hgh x (List.mem_cons_of_mem _ hx)) hl]
      exact hgh a (List.mem_cons_self ..) d c hb

theorem refusal_of_isolate {o : Options} {s t : Source} (h : isolate o s = .ok t) :
    (scan o.tag s).refusal o = none := by
  rw [isolate] at h
  cases hr : (scan o.tag s).refusal o with
  | none => rfl
  | some e =>
    rw [hr] at h
    cases h

/-- Strict isolation gives, if it gives anything, what lenient isolation gives. -/
theorem isolate_lenient {o : Options} {s t : Source} (h : isolate o s = .ok t) :
    isolate o.lenient s = .ok t := by
  have hr := refusal_of_isolate h
  have hr' : (scan o.lenient.tag s).refusal o.lenient = none := by
    simp [Scan.refusal, Options.lenient]
  rw [isolate, hr] at h
  rw [isolate, hr']
  refine foldrM_eq_ok_mono (fun e _ out c he => ?_) h
  have hlt : e.1.text.length < s.length := scanFrom_text_length_lt _ _ _ _ _ e.2
  cases hord : e.1.isOrdinary o with
  | false =>
    have hord' : e.1.isOrdinary o.lenient = false := hord
    rw [hord, if_neg Bool.false_ne_true] at he
    rw [hord', if_neg Bool.false_ne_true, he]
  | true =>
    have hord' : e.1.isOrdinary o.lenient = true := hord
    rw [hord, if_pos rfl] at he
    rw [hord', if_pos rfl]
    cases hinner : isolate o e.1.text with
    | error i =>
      rw [hinner] at he
      cases he
    | ok inner =>
      rw [hinner] at he
      rw [isolate_lenient hinner]
      exact he
termination_by s.length

theorem eq_edited_of_isolate {o : Options} {s t : Source} (h : isolate o s = .ok t) :
    t = edited (wrapping o (isolated o.lenient)) 0 (scan o.tag s).expressions s := by
  have hl := isolate_lenient h
  rw [isolate_eq_edited (o := o.lenient) rfl] at hl
  exact (Except.ok.inj hl).symm

theorem keeps_wrapping {o : Options} (hi : ∀ b ∈ o.isolator, isIdentifierByte b) :
    Keeps (wrapping o (isolated o.lenient)) :=
  fun _ => keepsClosed_wrapping hi fun hc => Closed.isolated (o := o.lenient) rfl hi hc

theorem isolate_of_not_ordinary {o : Options} {t : Source} (hr : (scan o.tag t).refusal o = none)
    (ht : ∀ e ∈ (scan o.tag t).expressions, e.isOrdinary o = false) : isolate o t = .ok t := by
  rw [isolate, hr]
  have hfold := foldrM_eq_ok (l := (scan o.tag t).expressions.attach)
    (g := fun e out =>
      if e.1.isOrdinary o then do
        let inner ← isolate o e.1.text
        return splice e.1.start e.1.stop
          (inBraces (wrapperOpening o ++ inner ++ wrapperClosing)) out
      else .ok out) (h := fun _ out => out)
    (fun e _ out => if_neg (by rw [ht e.1 e.2]; exact Bool.false_ne_true)) t
  refine hfold.trans (congrArg Except.ok ?_)
  generalize (scan o.tag t).expressions.attach = es
  induction es with
  | nil => rfl
  | cons e es ih => exact ih

theorem Balanced.isolated {o : Options} (hi : ∀ b ∈ o.isolator, isIdentifierByte b) {s : Source}
    (h : Balanced s) :
    Walks [.code .paren 0] (isolated o.lenient s) (some Bracket.paren.closing)
      [.code .paren 0] := by
  rw [isolated_eq_edited (o := o.lenient) rfl]
  have hbase : Follows .paren [.code 0 none] [.code .paren 0] := .base 0 0
  have hkeeps := keeps_wrapping (o := o.lenient) hi
  exact @walks_edited _ _ o.tag _ _ _ [] s hbase (fun e _ => hkeeps e) h.walks

/-- A record that stands for another one is not to be isolated, once that has been. -/
theorem isOrdinary_of_standsFor {o : Options} (hi : ∀ b ∈ o.isolator, isIdentifierByte b)
    (hne : o.isolator ≠ []) (hblank : dropBlank? o.isolator = none) {e e' : Expression}
    (hbalanced : e.isOrdinary o → Balanced e.text)
    (h : StandsFor (wrapping o (Template.isolated o.lenient)) e e') : e'.isOrdinary o = false := by
  obtain ⟨hterminated, hsource⟩ := h
  cases hord : e.isOrdinary o with
  | true =>
    rw [wrapping, if_pos hord, Option.getD_some] at hsource
    have hterm := hterminated.trans (e.isOrdinary_terminated hord)
    rw [source_of_terminated hterm] at hsource
    have htext : e'.text = wrapped o (isolated o.lenient e.text) := inBraces_inj hsource
    have hshape := shape_wrapped hne hblank ((hbalanced hord).isolated hi)
    rw [Expression.isOrdinary, htext, hshape, Bool.and_eq_false_iff]
    exact .inr rfl
  | false =>
    rw [wrapping, hord, if_neg Bool.false_ne_true, Option.getD_none] at hsource
    have htext : e'.text = e.text := by
      rw [Expression.source, Expression.source, hterminated] at hsource
      split at hsource
      · exact inBraces_inj hsource
      · exact (List.cons.inj (List.cons.inj hsource).2).2
    rwa [Expression.isOrdinary, htext, hterminated]

theorem exists_of_forall₂ {α β : Type} {R : α → β → Prop} {as : List α} {bs : List β}
    (h : List.Forall₂ R as bs) {b : β} (hb : b ∈ bs) : ∃ a ∈ as, R a b := by
  induction h with
  | nil => cases hb
  | cons hab _ ih =>
    rcases List.mem_cons.1 hb with rfl | hb
    · exact ⟨_, List.mem_cons_self .., hab⟩
    · obtain ⟨a, ha, hr⟩ := ih hb
      exact ⟨a, List.mem_cons_of_mem _ ha, hr⟩

/-- The names in the options are identifiers, and that of the isolating function does not begin with
white space. -/
structure Options.Named (o : Options) : Prop where
  tag : ∀ b ∈ o.tag, isIdentifierByte b
  isolator : ∀ b ∈ o.isolator, isIdentifierByte b
  isolator_ne_nil : o.isolator ≠ []
  isolator_not_blank : dropBlank? o.isolator = none

theorem isolate_again {o : Options} (ho : o.Named) {s t : Source} (h : isolate o s = .ok t)
    (hbalanced : ∀ e ∈ (scan o.tag s).expressions, e.isOrdinary o → Balanced e.text) :
    isolate o t = .ok t := by
  have ht := eq_edited_of_isolate h
  have hscan := scanFrom_edited (keeps_wrapping ho.isolator) ho.tag [.code 0 none] [.code 0 none]
    [] [] s rfl rfl
  have hr := refusal_of_isolate h
  refine isolate_of_not_ordinary ?_ fun e' he' => ?_
  · rw [Scan.refusal] at hr ⊢
    split at hr
    · next hstrict =>
      rw [if_pos hstrict, ht, ← Option.isNone_iff_eq_none]
      exact hscan.2.trans (Option.isNone_iff_eq_none.2 hr)
    · next hstrict => rw [if_neg hstrict]
  · rw [ht] at he'
    obtain ⟨e, he, hstands⟩ := exists_of_forall₂ hscan.1 he'
    exact isOrdinary_of_standsFor ho.isolator ho.isolator_ne_nil ho.isolator_not_blank
      (hbalanced e he) hstands

/-- Isolation of a function changes nothing the second time, strict or not, if the names in the
options are identifiers, that of the isolating function does not begin with white space, and
parentheses are balanced in each expression that is isolated. -/
theorem isolateFunction_again {o : Options} (ho : o.Named) {source t : Source}
    (h : isolateFunction o source = .ok t)
    (hbalanced : ∀ e ∈ (scan o.tag (isolationInput source)).expressions,
      e.isOrdinary o → Balanced e.text) :
    isolateFunction o t = .ok t := by
  have hkeeps := keeps_wrapping (o := o) ho.isolator
  have halike {s : Source} (hs : isolate o s = .ok t) :
      Alike o.tag (wrapping o (isolated o.lenient)) s t :=
    ⟨0, [], eq_edited_of_isolate hs⟩
  rw [isolateFunction] at h
  rw [isolationInput] at hbalanced
  cases hn : normalForm source with
  | ok n =>
    rw [hn] at h hbalanced
    have ht := (halike h).normalForm_eq hkeeps hn
    rw [isolateFunction, ht]
    exact isolate_again ho h hbalanced
  | error e =>
    rw [hn] at h hbalanced
    simp only at h hbalanced
    split at h
    · cases h
    · next hstrict =>
      have hok := (halike h).isOk_normalForm hkeeps
      rw [hn] at hok
      rw [isolateFunction]
      cases ht : normalForm t with
      | ok n =>
        rw [ht] at hok
        cases hok
      | error e' =>
        simp only [hstrict]
        exact isolate_again ho h hbalanced

theorem isolateFunction_again_standard :
    isolateFunction Options.standard (Source.ofString "() => html`${(a)}`") =
        .ok (Source.ofString "function() \x7b return (html`$\x7bcontain(() => ((a)))\x7d`); \x7d") ∧
      isolateFunction Options.standard
          (Source.ofString "function() \x7b return (html`$\x7bcontain(() => ((a)))\x7d`); \x7d") =
        .ok (Source.ofString "function() \x7b return (html`$\x7bcontain(() => ((a)))\x7d`); \x7d") := by
  have named : Options.standard.Named :=
    ⟨List.all_eq_true.1 (by decide), List.all_eq_true.1 (by decide), by decide, by decide⟩
  have first : isolateFunction Options.standard (Source.ofString "() => html`${(a)}`") =
      .ok (Source.ofString "function() \x7b return (html`$\x7bcontain(() => ((a)))\x7d`); \x7d") := by
    decide +kernel
  have hscan : (scan Options.standard.tag
      (isolationInput (Source.ofString "() => html`${(a)}`"))).expressions =
        [⟨26, 32, Source.ofString "(a)", true⟩] := by decide +kernel
  refine ⟨first, isolateFunction_again named first fun e he _ => ?_⟩
  rw [hscan] at he
  obtain rfl := List.mem_singleton.1 he
  decide +kernel

/-- A name that begins with a space outside of ASCII is made of identifier bytes, but what isolation
writes with it is not recognized: the space is taken off before the name is looked for. -/
theorem isolateFunction_again_fails :
    let o := { Options.standard with isolator := Source.ofString "\u00a0c" }
    let source := Source.ofString "html`${a}`"
    let t := Source.ofString "html`$\x7b\u00a0c(() => (a))\x7d`"
    (o.tag ≠ [] ∧ ∀ b ∈ o.tag, isIdentifierByte b) ∧
      (o.isolator ≠ [] ∧ ∀ b ∈ o.isolator, isIdentifierByte b) ∧
      isolateFunction o source = .ok t ∧
      (∀ e ∈ (scan o.tag (isolationInput source)).expressions, e.isOrdinary o → Balanced e.text) ∧
      isolateFunction o t ≠ .ok t := by
  decide +kernel

end Reactivity.Template
