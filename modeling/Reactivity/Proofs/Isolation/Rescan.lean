import Reactivity.Proofs.Isolation.Edits
import Mathlib.Tactic.SplitIfs

namespace Reactivity.Template

/-- A scan passes by the text `b :: q` in one step when `t` follows it. -/
def Passes (tag : Source) (levels : List Level) (before : Source) (b : UInt8) (q t : Source)
    (levels' : List Level) : Prop :=
  ∃ n, levelStep tag levels before b (q ++ t).head? = .pass n levels' ∧
    (n = q.length + 1 ∨ t = [] ∧ q.length < n)

theorem Passes.scanFrom_eq {tag : Source} {levels levels' : List Level} {before : Source}
    {b : UInt8} {q t : Source} (h : Passes tag levels before b q t levels') :
    scanFrom tag levels before (b :: (q ++ t)) =
      scanFrom tag levels' ((b :: q).reverse ++ before) t := by
  obtain ⟨n, hs, hn⟩ := h
  rw [scanFrom_cons tag levels before b (q ++ t) n levels' hs, ← List.cons_append]
  rcases hn with rfl | ⟨rfl, hn⟩
  · have hl : (b :: q).length = q.length + 1 := rfl
    rw [List.take_left' hl, List.drop_left' hl]
  · rw [List.append_nil, List.take_of_length_le hn, List.drop_of_length_le hn]

theorem exists_passes {tag : Source} {levels levels' : List Level} {before : Source}
    {b : UInt8} {r : Source} {n : Nat}
    (h : levelStep tag levels before b r.head? = .pass (n + 1) levels') :
    ∃ q t, r = q ++ t ∧ Passes tag levels before b q t levels' := by
  refine ⟨r.take n, r.drop n, (List.take_append_drop n r).symm, n + 1, ?_, ?_⟩
  · rwa [List.take_append_drop]
  · rcases Nat.le_total n r.length with hn | hn
    · exact .inl (by rw [List.length_take, Nat.min_eq_left hn])
    · refine .inr ⟨List.drop_of_length_le hn, ?_⟩
      rw [List.length_take]
      omega

theorem levelStep_pass_pos {tag : Source} {levels levels' : List Level} {before : Source}
    {b : UInt8} {next : Option UInt8} {n : Nat}
    (h : levelStep tag levels before b next = .pass n levels') : 0 < n := by
  cases levels with
  | nil => cases h
  | cons l st => cases l <;> grind [levelStep]

theorem levelStep_eq_close_iff {tag : Source} {levels : List Level} {before : Source}
    {b : UInt8} {next : Option UInt8} :
    levelStep tag levels before b next = .close ↔ levels = [] := by
  cases levels with
  | nil => simp [levelStep]
  | cons l st => cases l <;> grind [levelStep]

section

variable {tag : Source} {openedAt : Nat} {st : List Level} {before : Source}

theorem scanFrom_unterminated_eq {rest : Source} (h : Bracket.brace.close? rest = none) :
    scanFrom tag (.template openedAt true :: st) before
        (Source.dollar :: Bracket.brace.opening :: rest) =
      ⟨[.openAt before.length rest], .broken (.unterminatedExpression before.length)⟩ := by
  have h₁ : Source.dollar ≠ Source.backslash := by decide
  have h₂ : Source.dollar ≠ Source.backtick := by decide
  rw [scanFrom, if_neg h₁, if_neg h₂]
  simp [h, Expression.openAt]

theorem scanFrom_unterminated {rest : Source} (h : Bracket.brace.close? rest = none) :
    (scanFrom tag (.template openedAt true :: st) before
        (Source.dollar :: Bracket.brace.opening :: rest)).expressions =
      [.openAt before.length rest] := by
  rw [scanFrom_unterminated_eq h]

theorem scanFrom_record_eq {text : Source} (h : Closed text) (t : Source) :
    scanFrom tag (.template openedAt true :: st) before (inBraces text ++ t) =
      (scanFrom tag (.template openedAt true :: st) ((inBraces text).reverse ++ before) t).cons
        (.closedAt before.length text) := by
  have hc : Bracket.brace.close? (text ++ Bracket.brace.closing :: t) = some text.length :=
    h.close?_eq t
  have hd : (text ++ Bracket.brace.closing :: t).drop (text.length + 1) = t := by
    rw [← List.singleton_append, ← List.append_assoc]
    exact List.drop_left' (by simp)
  have he : inBraces text ++ t =
      Source.dollar :: Bracket.brace.opening :: (text ++ Bracket.brace.closing :: t) := by
    simp [inBraces]
  have h₁ : Source.dollar ≠ Source.backslash := by decide
  have h₂ : Source.dollar ≠ Source.backtick := by decide
  rw [he, scanFrom, if_neg h₁, if_neg h₂]
  simp only [List.head?_cons, List.drop_succ_cons, List.drop_zero, hc, List.take_left, hd,
    and_self, if_true]
  simp only [Expression.closedAt, inBraces, List.length_cons, List.length_append, List.length_nil,
    List.reverse_cons, List.reverse_append, List.reverse_nil, List.nil_append, List.append_assoc,
    List.cons_append]
  congr 2
  omega

theorem scanFrom_record {text : Source} (h : Closed text) (t : Source) :
    (scanFrom tag (.template openedAt true :: st) before (inBraces text ++ t)).expressions =
      .closedAt before.length text ::
        (scanFrom tag (.template openedAt true :: st) ((inBraces text).reverse ++ before)
          t).expressions := by
  rw [scanFrom_record_eq h]
  rfl

end

theorem scan_induction (tag : Source) {motive : List Level → Source → Source → Prop}
    (close : ∀ before s, motive [] before s)
    (done : ∀ levels before, motive levels before [])
    (pass : ∀ levels before b q t levels', Passes tag levels before b q t levels' →
      motive levels' ((b :: q).reverse ++ before) t → motive levels before (b :: (q ++ t)))
    (unterminated : ∀ openedAt st before rest, Bracket.brace.close? rest = none →
      motive (.template openedAt true :: st) before
        (Source.dollar :: Bracket.brace.opening :: rest))
    (record : ∀ openedAt st before text t, Closed text →
      motive (.template openedAt true :: st) ((inBraces text).reverse ++ before) t →
      motive (.template openedAt true :: st) before (inBraces text ++ t))
    (levels : List Level) (before s : Source) : motive levels before s := by
  match s with
  | [] => exact done levels before
  | b :: r =>
    cases hs : levelStep tag levels before b r.head? with
    | close =>
      obtain rfl := levelStep_eq_close_iff.1 hs
      exact close before _
    | pass n levels' =>
      obtain ⟨m, rfl⟩ := Nat.exists_eq_succ_of_ne_zero (Nat.ne_of_gt (levelStep_pass_pos hs))
      obtain ⟨q, t, rfl, hp⟩ := exists_passes hs
      exact pass levels before b q t levels' hp
        (scan_induction tag close done pass unterminated record levels' _ t)
    | record =>
      obtain ⟨openedAt, st, rfl, rfl, hr⟩ := levelStep_eq_record_iff.1 hs
      obtain ⟨rest, hrest⟩ := List.head?_eq_some_iff.1 hr
      cases hc : Bracket.brace.close? rest with
      | none =>
        subst hrest
        exact unterminated openedAt st before rest hc
      | some close' =>
        obtain ⟨hcl, he⟩ := closed_of_close?_eq hc
        have hlt : (rest.drop (close' + 1)).length < (Source.dollar :: r).length := by
          simp only [hrest, List.length_cons, List.length_drop]
          omega
        have ih := scan_induction tag close done pass unterminated record
          (.template openedAt true :: st) ((inBraces (rest.take close')).reverse ++ before)
          (rest.drop (close' + 1))
        have hb : Source.dollar :: r =
            inBraces (rest.take close') ++ rest.drop (close' + 1) := by
          simp only [hrest, inBraces, List.cons_append, List.append_assoc, List.nil_append, ← he]
        rw [hb]
        exact record openedAt st before _ _ hcl ih
termination_by s.length
decreasing_by
  · exact hlt
  · subst r
    simp only [List.length_cons, List.length_append]
    omega

theorem scanFrom_nil_levels (tag before s : Source) :
    (scanFrom tag [] before s).expressions = [] := by
  cases s <;> rw [scanFrom]

theorem scanFrom_nil_source (tag : Source) (levels : List Level) (before : Source) :
    (scanFrom tag levels before []).expressions = [] := by
  cases levels with
  | nil => exact scanFrom_nil_levels ..
  | cons l st => rw [scanFrom]

theorem source_of_terminated {e : Expression} (h : e.terminated) : e.source = inBraces e.text :=
  if_pos h

theorem length_reverse_append (p before : Source) :
    (p.reverse ++ before).length = before.length + p.length := by
  rw [List.length_append, List.length_reverse, Nat.add_comm]

theorem scanFrom_located (tag : Source) (levels : List Level) (before s : Source) :
    Located before.length (scanFrom tag levels before s).expressions s := by
  induction levels, before, s using scan_induction tag with
  | close before s =>
    rw [scanFrom_nil_levels]
    exact .done _ _
  | done levels before =>
    rw [scanFrom_nil_source]
    exact .done _ _
  | pass levels before b q t levels' hp ih =>
    rw [hp.scanFrom_eq]
    rw [length_reverse_append] at ih
    exact ih.append
  | unterminated openedAt st before rest hc =>
    rw [scanFrom_unterminated hc, ← List.append_nil (Source.dollar :: _), ← List.nil_append (_ ++ _)]
    refine .cons (e := .openAt _ rest) rfl ?_ (.done _ _)
    simp only [Expression.openAt, Expression.source, Bool.false_eq_true, if_false,
      List.length_cons]
    omega
  | record openedAt st before text t hc ih =>
    rw [scanFrom_record hc, ← List.nil_append (inBraces text ++ t)]
    rw [length_reverse_append] at ih
    exact .cons (e := .closedAt _ text) rfl rfl ih

theorem Walks.of_passes {k : Bracket} {tag : Source} {levels levels' : List Level}
    {before : Source} {b : UInt8} {q t : Source} {frames fs : List Frame}
    (hf : Follows k levels frames) (hp : Passes tag levels before b q t levels')
    (h : Walks frames (b :: (q ++ t)) (some k.closing) fs) :
    ∃ frames', Follows k levels' frames' ∧
      frameStep frames b ((q ++ t).head?.or (some k.closing)) = .pass (q.length + 1) frames' ∧
      Walks frames' t (some k.closing) fs := by
  obtain ⟨n, hs, hn⟩ := hp
  generalize hw : b :: (q ++ t) = w at h
  cases h with
  | refl => cases hw
  | @pass _ fs₁ _ b' q' r' _ step rest =>
    obtain ⟨rfl, he⟩ := List.cons.inj hw
    rw [← he] at step
    have hc : (q ++ t).head?.or (some k.closing) = some ((q ++ t).head?.getD k.closing) := by
      cases (q ++ t).head? <;> rfl
    rw [hc] at step ⊢
    rcases hf.step hs rfl with hclose | ⟨frames', hpass, hf'⟩
    · rw [hclose] at step
      cases step
    · rw [hpass] at step
      obtain ⟨rfl, rfl⟩ := FrameStep.pass.inj step
      have hl : q.length = q'.length := by
        rcases hn with hn | ⟨rfl, hn⟩
        · omega
        · have := congrArg List.length he
          simp only [List.length_append, List.length_nil] at this
          omega
      obtain ⟨rfl, rfl⟩ := List.append_inj he hl
      exact ⟨frames', hf', hpass, rest⟩

theorem head?_append_congr {q t t' : Source} (h : t'.head? = t.head?) :
    (q ++ t').head? = (q ++ t).head? := by
  rw [List.head?_append, List.head?_append, h]

theorem frameStep_template {st : List Frame} :
    frameStep (.template :: st) Source.dollar (some Bracket.brace.opening) =
      .pass 2 (.code .brace 0 :: .template :: st) :=
  rfl

theorem Closed.walks_inBraces {w : Source} (h : Closed w) (st : List Frame)
    (next : Option UInt8) : Walks (.template :: st) (inBraces w) next (.template :: st) := by
  have inside : Walks (.code .brace 0 :: .template :: st) w (some Bracket.brace.closing)
      (.code .brace 0 :: .template :: st) :=
    Walks.append (k := .brace) h (.inl ⟨rfl, rfl⟩) (List.cons_ne_nil _ _)
  have closing : Walks (.code .brace 0 :: .template :: st) [Bracket.brace.closing] next
      (.template :: st) := .pass (q := []) rfl (.refl _ _)
  exact .pass (q := [Bracket.brace.opening]) frameStep_template (inside.trans closing)

/-- What a search passes by, it passes by still when the records in it have been edited. -/
theorem walks_edited {f : Expression → Option Source} {k : Bracket} {tag : Source}
    {fs frames : List Frame} {levels : List Level} {before s : Source}
    (hl : Follows k levels frames)
    (hf : ∀ e ∈ (scanFrom tag levels before s).expressions, KeepsClosed f e)
    (h : Walks frames s (some k.closing) fs) :
    Walks frames (edited f before.length (scanFrom tag levels before s).expressions s)
      (some k.closing) fs := by
  induction levels, before, s using scan_induction tag generalizing frames with
  | close before s => cases hl
  | done levels before =>
    rw [scanFrom_nil_source]
    exact h
  | pass levels before b q t levels' hp ih =>
    have hlo := scanFrom_located tag levels' ((b :: q).reverse ++ before) t
    rw [hp.scanFrom_eq] at hf ⊢
    obtain ⟨frames', hl', hstep, hrest⟩ := Walks.of_passes hl hp h
    have ht := edited_head? hf hlo
    have ih := ih hl' hf hrest
    rw [length_reverse_append] at hlo ht ih
    rw [← List.cons_append, edited_append hlo, List.cons_append]
    refine .pass ?_ ih
    rwa [head?_append_congr ht]
  | unterminated openedAt st before rest hc =>
    rw [scanFrom_unterminated hc] at hf ⊢
    rw [edited_openAt]
    · exact h
    · cases he : f (.openAt before.length rest) with
      | none => rfl
      | some u => cases (hf _ (List.mem_singleton.2 rfl) u he).1
  | record openedAt st before text t hc ih =>
    obtain ⟨frames, rfl⟩ := hl.template
    rw [scanFrom_record hc] at hf ⊢
    have hrest : Walks (.template :: frames) t (some k.closing) fs :=
      (hc.walks_inBraces _ _).cancel h
    have ih := ih hl (fun e he => hf e (List.mem_cons_of_mem _ he)) hrest
    rw [length_reverse_append] at ih
    rw [edited_closedAt]
    refine Walks.trans ?_ ih
    cases he : f (.closedAt before.length text) with
    | none => exact hc.walks_inBraces _ _
    | some u =>
      obtain ⟨-, w, rfl, hw⟩ := hf _ (List.mem_cons_self ..) u he
      exact (hw hc).walks_inBraces _ _

theorem Closed.edited {f : Expression → Option Source} {tag s : Source}
    (hf : ∀ e ∈ (scan tag s).expressions, KeepsClosed f e) (h : Closed s) :
    Closed (edited f 0 (scan tag s).expressions s) :=
  walks_edited (.base 0 0) hf h

def Level.unplaced : Level → Level
  | .code depth openedAt => .code depth (openedAt.map fun _ => 0)
  | .template _ tagged => .template 0 tagged
  | .quoted q => .quoted q
  | .lineComment => .lineComment
  | .blockComment => .blockComment

def lastName (before : Source) : Source :=
  before.takeWhile isIdentifierByte

theorem lastName_append_congr {before before' : Source} (p : Source)
    (h : lastName before = lastName before') :
    lastName (p ++ before) = lastName (p ++ before') := by
  simp only [lastName, List.takeWhile_append] at h ⊢
  rw [h]

theorem endsWithTag_iff {tag before : Source} :
    endsWithTag tag before ↔
      tag ≠ [] ∧ ∃ rest, before = tag.reverse ++ rest ∧ ¬ rest.head?.any isIdentifierByte := by
  cases tag with
  | nil => simp [endsWithTag]
  | cons a tag =>
    cases h : dropPrefix? (a :: tag).reverse before with
    | none =>
      have hn : ∀ rest, before ≠ (a :: tag).reverse ++ rest := by
        intro rest he
        rw [dropPrefix?_eq_some_iff.2 he] at h
        cases h
      simp only [endsWithTag, h, Bool.false_eq_true, false_iff, not_and, not_exists]
      exact fun _ rest he => absurd he (hn rest)
    | some rest =>
      obtain rfl := dropPrefix?_eq_some_iff.1 h
      simp only [endsWithTag, h, Bool.not_eq_true', ne_eq, reduceCtorEq, not_false_eq_true,
        List.append_cancel_left_eq, true_and, Bool.not_eq_true]
      exact ⟨fun hr => ⟨rest, rfl, hr⟩, fun ⟨_, he, hr⟩ => he ▸ hr⟩

theorem endsWithTag_lastName {tag : Source} (htag : ∀ b ∈ tag, isIdentifierByte b)
    (before : Source) : endsWithTag tag (lastName before) = endsWithTag tag before := by
  have hrev : ∀ b ∈ tag.reverse, isIdentifierByte b := fun b hb => htag b (List.mem_reverse.1 hb)
  have hhead : ∀ rest : Source, (lastName rest).head?.any isIdentifierByte =
      rest.head?.any isIdentifierByte := by
    intro rest
    cases rest with
    | nil => rfl
    | cons b rest =>
      cases hb : isIdentifierByte b <;> simp [lastName, hb]
  rw [Bool.eq_iff_iff, endsWithTag_iff, endsWithTag_iff]
  refine and_congr_right fun _ => ⟨?_, ?_⟩
  · rintro ⟨rest, he, hr⟩
    refine ⟨rest ++ before.dropWhile isIdentifierByte, ?_, ?_⟩
    · rw [← List.append_assoc, ← he, lastName, List.takeWhile_append_dropWhile]
    · cases rest with
      | cons b rest => exact hr
      | nil =>
        rw [List.nil_append]
        have := List.head?_dropWhile_not isIdentifierByte before
        cases hd : (before.dropWhile isIdentifierByte).head? with
        | none => exact Bool.false_ne_true
        | some b =>
          rw [hd] at this
          simpa using this
  · rintro ⟨rest, rfl, hr⟩
    refine ⟨lastName rest, ?_, ?_⟩
    · rw [lastName, List.takeWhile_append_of_pos hrev, lastName]
    · rwa [hhead]

theorem endsWithTag_congr {tag : Source} (htag : ∀ b ∈ tag, isIdentifierByte b)
    {before before' : Source} (h : lastName before = lastName before') :
    endsWithTag tag before = endsWithTag tag before' := by
  rw [← endsWithTag_lastName htag before, h, endsWithTag_lastName htag]

theorem levelStep_congr {tag : Source} (htag : ∀ b ∈ tag, isIdentifierByte b)
    {levels levels' levels₁ : List Level} {before before' : Source} {b : UInt8}
    {next : Option UInt8} {n : Nat}
    (hl : levels.map Level.unplaced = levels'.map Level.unplaced)
    (hb : lastName before = lastName before')
    (h : levelStep tag levels before b next = .pass n levels₁) :
    ∃ levels₂, levelStep tag levels' before' b next = .pass n levels₂ ∧
      levels₁.map Level.unplaced = levels₂.map Level.unplaced := by
  have ht := endsWithTag_congr htag hb
  cases levels with
  | nil => cases h
  | cons l st =>
    cases levels' with
    | nil => cases hl
    | cons l' st' =>
      rw [List.map_cons, List.map_cons, List.cons.injEq] at hl
      obtain ⟨hl, hst⟩ := hl
      cases l with
      | quoted q => cases l' <;> grind [levelStep, Level.unplaced]
      | lineComment => cases l' <;> grind [levelStep, Level.unplaced]
      | blockComment => cases l' <;> grind [levelStep, Level.unplaced]
      | template openedAt tagged => cases l' <;> grind [levelStep, Level.unplaced]
      | code depth openedAt =>
        cases l' with
        | code depth' openedAt' =>
          obtain ⟨rfl, ho⟩ : depth = depth' ∧ openedAt.isSome = openedAt'.isSome := by
            cases openedAt <;> cases openedAt' <;> simp_all [Level.unplaced]
          simp only [levelStep, ← ht, ← ho] at h ⊢
          grind [Level.unplaced]
        | _ => cases hl

theorem exists_template_of_unplaced {openedAt : Nat} {tagged : Bool} {st levels' : List Level}
    (h : (Level.template openedAt tagged :: st).map Level.unplaced =
      levels'.map Level.unplaced) :
    ∃ openedAt' st', levels' = .template openedAt' tagged :: st' := by
  cases levels' with
  | nil => cases h
  | cons l' st' =>
    obtain ⟨hl, -⟩ := List.cons.inj h
    cases l' with
    | template openedAt' tagged' =>
      obtain ⟨-, rfl⟩ := Level.template.inj hl
      exact ⟨openedAt', st', rfl⟩
    | _ => cases hl

theorem lastName_inBraces (w before : Source) : lastName ((inBraces w).reverse ++ before) = [] := by
  have hc : isIdentifierByte Bracket.brace.closing = false := by decide
  simp [lastName, inBraces, hc]

/-- The second edit puts back what the first one replaced, and leaves what it left. -/
def PutsBack (f g : Expression → Option Source) (e : Expression) : Prop :=
  match f e with
  | some t => ∀ e' : Expression, e'.terminated → e'.source = t → g e' = some e.source
  | none => ∀ e' : Expression, e'.text = e.text → g e' = none

/-- A scan of an edited text finds a record for each one of the text, and editing those back gives
the text. -/
theorem edited_edited {f g : Expression → Option Source} {tag : Source}
    (htag : ∀ b ∈ tag, isIdentifierByte b) (levels levels' : List Level) (before before' s : Source)
    (hl : levels.map Level.unplaced = levels'.map Level.unplaced)
    (hb : lastName before = lastName before')
    (hf : ∀ e ∈ (scanFrom tag levels before s).expressions, KeepsClosed f e)
    (hfg : ∀ e ∈ (scanFrom tag levels before s).expressions, PutsBack f g e) :
    let s' := edited f before.length (scanFrom tag levels before s).expressions s
    edited g before'.length (scanFrom tag levels' before' s').expressions s' = s := by
  induction levels, before, s using scan_induction tag generalizing levels' before' with
  | close before s =>
    obtain rfl : levels' = [] := by simpa using hl.symm
    rw [scanFrom_nil_levels]
    simp only [edited, scanFrom_nil_levels]
  | done levels before =>
    rw [scanFrom_nil_source]
    simp only [edited, scanFrom_nil_source]
  | pass levels before b q t levels₁ hp ih =>
    have hlo := scanFrom_located tag levels₁ ((b :: q).reverse ++ before) t
    rw [hp.scanFrom_eq] at hf hfg ⊢
    obtain ⟨n, hs, hn⟩ := hp
    obtain ⟨levels₂, hs', hl'⟩ := levelStep_congr htag hl hb hs
    have ht := edited_head? hf hlo
    have ih := ih levels₂ ((b :: q).reverse ++ before') hl' (lastName_append_congr _ hb) hf hfg
    rw [length_reverse_append] at hlo ht ih
    rw [← List.cons_append, edited_append hlo, List.cons_append]
    generalize hu : edited f (before.length + (b :: q).length) _ t = u at ht ih
    have hp' : Passes tag levels' before' b q u levels₂ := by
      refine ⟨n, ?_, ?_⟩
      · rwa [head?_append_congr ht]
      · rcases hn with hn | ⟨rfl, hn⟩
        · exact .inl hn
        · exact .inr ⟨List.head?_eq_none_iff.1 ht, hn⟩
    have hlo' := scanFrom_located tag levels₂ ((b :: q).reverse ++ before') u
    simp only at ih ⊢
    rw [length_reverse_append] at hlo' ih
    rw [hp'.scanFrom_eq, ← List.cons_append, edited_append hlo', ih]
  | unterminated openedAt st before rest hc =>
    obtain ⟨openedAt', st', rfl⟩ := exists_template_of_unplaced hl
    rw [scanFrom_unterminated hc] at hf hfg ⊢
    have hn : f (.openAt before.length rest) = none := by
      cases he : f (.openAt before.length rest) with
      | none => rfl
      | some u => cases (hf _ (List.mem_singleton.2 rfl) u he).1
    have hback := hfg _ (List.mem_singleton.2 rfl)
    rw [PutsBack, hn] at hback
    rw [edited_openAt hn]
    simp only
    rw [scanFrom_unterminated hc, edited_openAt (hback (.openAt before'.length rest) rfl)]
  | record openedAt st before text t hc ih =>
    obtain ⟨openedAt', st', rfl⟩ := exists_template_of_unplaced hl
    rw [scanFrom_record hc] at hf hfg ⊢
    obtain ⟨w, hw, hfw, hgw⟩ : ∃ w, Closed w ∧
        (f (.closedAt before.length text)).getD (inBraces text) = inBraces w ∧
        (g (.closedAt before'.length w)).getD (inBraces w) = inBraces text := by
      have hkeep := hf _ (List.mem_cons_self ..)
      have hback := hfg _ (List.mem_cons_self ..)
      rw [PutsBack] at hback
      cases he : f (.closedAt before.length text) with
      | none =>
        rw [he] at hback
        exact ⟨text, hc, rfl, by rw [hback (.closedAt before'.length text) rfl]; rfl⟩
      | some u =>
        rw [he] at hback
        obtain ⟨-, w, rfl, hw⟩ := hkeep u he
        exact ⟨w, hw hc, rfl, by rw [hback (.closedAt before'.length w) rfl rfl]; rfl⟩
    have ih := ih (.template openedAt' true :: st') ((inBraces w).reverse ++ before') hl
      (by rw [lastName_inBraces, lastName_inBraces])
      (fun e he => hf e (List.mem_cons_of_mem _ he)) (fun e he => hfg e (List.mem_cons_of_mem _ he))
    rw [edited_closedAt, hfw]
    simp only at ih ⊢
    rw [scanFrom_record hw, edited_closedAt, hgw]
    rw [length_reverse_append, length_reverse_append] at ih
    rw [ih]

end Reactivity.Template
