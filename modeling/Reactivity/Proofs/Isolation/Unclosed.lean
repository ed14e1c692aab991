import Reactivity.Proofs.Isolation.Carrying
import Reactivity.Proofs.Isolation.Verbatim

namespace Reactivity.Template

/-- `Within o st levels frames`: a scan under the levels is inside of the expression that opens at the
offset `o` above the levels `st`, and a search for the brace that closes it, under the frames, is inside
of the same constructs. -/
inductive Within (o : Nat) (st : List Level) : List Level → List Frame → Prop
  | base (depth : Nat) : Within o st (.code depth (some o) :: st) [.code .brace depth]
  | inner {l : Level} {levels : List Level} {frames : List Frame} (inner : l.isBase = false)
      (above : ∀ i, l.openedAt? = some i → o ≤ i) (rest : Within o st levels frames) :
      Within o st (l :: levels) (l.frame :: frames)

variable {tag : Source} {o : Nat} {st levels levels' : List Level} {frames : List Frame}
  {before : Source}

theorem Within.ne_nil (h : Within o st levels frames) : frames ≠ [] := by
  cases h <;> exact List.cons_ne_nil _ _

theorem Within.template {i : Nat} {tagged : Bool}
    (h : Within o st (.template i tagged :: levels) frames) :
    ∃ frames', frames = .template :: frames' := by
  cases h
  exact ⟨_, rfl⟩

theorem Within.eq_code {f : Frame} (h : Within o st levels [f]) : ∃ depth, f = .code .brace depth := by
  generalize hfs : [f] = fs at h
  cases h with
  | base depth => exact ⟨depth, (List.cons.inj hfs).1⟩
  | inner inner above rest => exact absurd (List.cons.inj hfs).2.symm rest.ne_nil

/-- The end of the text leaves the expression open, or what is open inside of it. -/
theorem Within.endOfText (h : Within o st levels frames) :
    ∃ err i, endOfText levels = .broken err ∧ err.offset? = some i ∧ o ≤ i := by
  induction h with
  | base => exact ⟨_, o, rfl, rfl, Nat.le_refl o⟩
  | @inner l levels frames inner above rest ih =>
    cases l with
    | code depth openedAt =>
      cases openedAt with
      | none => cases inner
      | some i => exact ⟨_, i, rfl, rfl, above i rfl⟩
    | template i tagged => exact ⟨_, i, rfl, rfl, above i rfl⟩
    | _ => exact ih

/-- In the code of an expression, a scan leaves it, goes on in it, or enters something else, and so
does the search for the closing brace, unless the text ends too early for that. -/
theorem levelStep_code {depth i n : Nat} {b : UInt8} {next : Option UInt8} {g : List Frame}
    (hs : levelStep tag (.code depth (some i) :: st) before b next = .pass n levels') :
    (b = Bracket.brace.closing ∧ depth = 0 ∧ n = 1 ∧ levels' = st) ∨
      (∃ depth', levels' = .code depth' (some i) :: st ∧
        (frameStep (.code .brace depth :: g) b next = .pass n (.code .brace depth' :: g) ∨
          frameStep (.code .brace depth :: g) b next = .stop ∧ next = none)) ∨
      ∃ l, levels' = l :: .code depth (some i) :: st ∧ l.isBase = false ∧
        (l.openedAt? = none ∨ ∃ tagged, l = .template before.length tagged) ∧
        frameStep (.code .brace depth :: g) b next = .pass n (l.frame :: .code .brace depth :: g) := by
  simp only [levelStep] at hs
  split_ifs at hs with hquote htick hline hblock hopen hclose hleave <;> cases hs
  · exact .inr (.inr ⟨.quoted b, rfl, rfl, .inl rfl, by simp [frameStep, hquote, Level.frame]⟩)
  · subst htick
    exact .inr (.inr ⟨_, rfl, rfl, .inr ⟨_, rfl⟩, rfl⟩)
  · obtain ⟨rfl, rfl⟩ := hline
    exact .inr (.inr ⟨.lineComment, rfl, rfl, .inl rfl, rfl⟩)
  · obtain ⟨rfl, rfl⟩ := hblock
    exact .inr (.inr ⟨.blockComment, rfl, rfl, .inl rfl, rfl⟩)
  · subst hopen
    exact .inr (.inl ⟨depth + 1, rfl, .inl rfl⟩)
  · exact .inl ⟨hclose, hleave.1, rfl, rfl⟩
  · subst hclose
    cases depth with
    | zero => exact absurd ⟨rfl, rfl⟩ hleave
    | succ depth => exact .inr (.inl ⟨depth, rfl, .inl rfl⟩)
  · refine .inr (.inl ⟨depth, rfl, ?_⟩)
    by_cases hslash : b = Source.slash
    · subst hslash
      cases next with
      | none => exact .inr ⟨rfl, rfl⟩
      | some c =>
        have hc : c ≠ Source.slash := fun h => hline ⟨rfl, congrArg some h⟩
        have hc' : c ≠ Source.star := fun h => hblock ⟨rfl, congrArg some h⟩
        exact .inl (by simp [frameStep, hc, hc', hquote, htick])
    · exact .inl (by simp [frameStep, hquote, htick, hslash, hclose, hopen])

/-- The search ends where the scan leaves the expression; up to there, they pass by the same bytes. -/
theorem Within.step {b : UInt8} {next : Option UInt8} {n : Nat} (h : Within o st levels frames)
    (ho : o ≤ before.length) (hs : levelStep tag levels before b next = .pass n levels') :
    frameStep frames b next = .close ∧ n = 1 ∧ levels' = st ∨
      frameStep frames b next = .stop ∧ next = none ∧ (∃ frames', Within o st levels' frames') ∨
      ∃ frames', frameStep frames b next = .pass n frames' ∧ Within o st levels' frames' := by
  have enter {l : Level} {levels : List Level} {frames : List Frame} (hl : l.isBase = false)
      (hi : l.openedAt? = none ∨ ∃ tagged, l = .template before.length tagged)
      (h : Within o st levels frames) : Within o st (l :: levels) (l.frame :: frames) := by
    refine .inner hl (fun i he => ?_) h
    rcases hi with hi | ⟨tagged, rfl⟩
    · rw [hi] at he
      cases he
    · cases he
      exact ho
  cases h with
  | base depth =>
    rcases levelStep_code (g := []) hs with ⟨rfl, rfl, rfl, rfl⟩ | ⟨d, rfl, hf | ⟨hf, rfl⟩⟩ |
      ⟨l, rfl, hl, hi, hf⟩
    · exact .inl ⟨rfl, rfl, rfl⟩
    · exact .inr (.inr ⟨_, hf, .base d⟩)
    · exact .inr (.inl ⟨hf, rfl, _, .base d⟩)
    · exact .inr (.inr ⟨_, hf, enter hl hi (.base depth)⟩)
  | @inner l levels frames inner above rest =>
    have again : Within o st (l :: levels) (l.frame :: frames) := .inner inner above rest
    cases l with
    | code depth openedAt =>
      obtain ⟨i, rfl⟩ : ∃ i, openedAt = some i := by cases openedAt <;> simp_all [Level.isBase]
      have deeper (d : Nat) : Within o st (.code d (some i) :: levels) (.code .brace d :: frames) :=
        .inner rfl above rest
      rcases levelStep_code (g := frames) hs with ⟨rfl, rfl, rfl, rfl⟩ | ⟨d, rfl, hf | ⟨hf, rfl⟩⟩ |
        ⟨l, rfl, hl, hi, hf⟩
      · obtain ⟨f, fs, rfl⟩ := List.exists_cons_of_ne_nil rest.ne_nil
        exact .inr (.inr ⟨_, rfl, rest⟩)
      · exact .inr (.inr ⟨_, hf, deeper d⟩)
      · exact .inr (.inl ⟨hf, rfl, _, deeper d⟩)
      · exact .inr (.inr ⟨_, hf, enter hl hi again⟩)
    | quoted q => cases next <;> grind [levelStep, frameStep, Level.frame]
    | lineComment => grind [levelStep, frameStep, Level.frame]
    | blockComment => cases next <;> grind [levelStep, frameStep, Level.frame]
    | template i tagged =>
      have code := Within.inner (l := .code 0 (some before.length)) rfl
        (fun j he => Option.some.inj he ▸ ho) again
      clear enter
      simp only [Level.frame] at again code
      cases next <;> grind [levelStep, frameStep, Level.frame, Bracket.closing, Bracket.opening]

theorem closeFrom_of_passes {b : UInt8} {q t : Source} {frames' : List Frame} {n i : Nat}
    (hs : frameStep frames b (q ++ t).head? = .pass n frames')
    (hn : n = q.length + 1 ∨ t = [] ∧ q.length < n) :
    closeFrom frames i (b :: (q ++ t)) = closeFrom frames' (i + n) t := by
  rw [closeFrom_cons, hs]
  rcases hn with rfl | ⟨rfl, hn⟩
  · simp
  · simp only [List.append_nil]
    rw [List.drop_of_length_le hn, closeFrom_nil]

/-- Where the search finds no closing brace, the scan leaves the expression open, or something inside
of it. -/
theorem Within.broken {s : Source} {i : Nat} (h : Within o st levels frames)
    (ho : o ≤ before.length) (hc : closeFrom frames i s = none) :
    ∃ err j, (scanFrom tag levels before s).ending = .broken err ∧ err.offset? = some j ∧ o ≤ j := by
  induction levels, before, s using scan_induction tag generalizing frames i with
  | close before s => cases h
  | done levels before =>
    obtain ⟨err, j, he, hj⟩ := h.endOfText
    cases levels with
    | nil => cases h
    | cons l levels => exact ⟨err, j, by rw [scanFrom, he], hj⟩
  | pass levels before b q t levels' hp ih =>
    rw [hp.scanFrom_eq]
    obtain ⟨n, hs, hn⟩ := hp
    have ho' : o ≤ ((b :: q).reverse ++ before).length := by
      rw [length_reverse_append]
      omega
    rcases h.step ho hs with ⟨hf, -, -⟩ | ⟨-, hnext, frames', h'⟩ | ⟨frames', hf, h'⟩
    · rw [closeFrom_cons, hf] at hc
      cases hc
    · obtain ⟨-, rfl⟩ := List.append_eq_nil_iff.1 (List.head?_eq_none_iff.1 hnext)
      exact ih h' ho' (closeFrom_nil frames' i)
    · exact ih h' ho' ((closeFrom_of_passes hf hn).symm.trans hc)
  | unterminated openedAt st' before rest hr =>
    rw [scanFrom_unterminated_eq hr]
    exact ⟨_, _, rfl, rfl, ho⟩
  | record openedAt st' before text t ht ih =>
    obtain ⟨frames, rfl⟩ := h.template
    rw [scanFrom_record_eq ht]
    rw [ht.closeFrom_inBraces] at hc
    refine ih h ?_ hc
    rw [length_reverse_append]
    omega

/-- Where the search finds the closing brace, the scan leaves the expression. -/
theorem Within.ending_eq {s : Source} {i j : Nat} (h : Within o st levels frames)
    (ho : o ≤ before.length) (hc : closeFrom frames i s = some j) :
    ∃ p r, s = p ++ Bracket.brace.closing :: r ∧ j = i + p.length ∧
      (scanFrom tag levels before s).ending =
        (scanFrom tag st (Bracket.brace.closing :: (p.reverse ++ before)) r).ending := by
  induction levels, before, s using scan_induction tag generalizing frames i with
  | close before s => cases h
  | done levels before =>
    rw [closeFrom_nil] at hc
    cases hc
  | pass levels before b q t levels' hp ih =>
    rw [hp.scanFrom_eq]
    obtain ⟨n, hs, hn⟩ := hp
    have ho' : o ≤ ((b :: q).reverse ++ before).length := by
      rw [length_reverse_append]
      omega
    rcases h.step ho hs with ⟨hf, rfl, rfl⟩ | ⟨hf, -, -⟩ | ⟨frames', hf, h'⟩
    · obtain ⟨k, rfl, rfl⟩ := frameStep_eq_close_iff.1 hf
      obtain ⟨depth, hk⟩ := h.eq_code
      obtain ⟨rfl, rfl⟩ := Frame.code.inj hk
      rw [closeFrom_cons, hf] at hc
      have hq : q = [] := by
        rcases hn with hn | ⟨-, hn⟩
        · exact List.length_eq_zero_iff.1 (by omega)
        · exact List.length_eq_zero_iff.1 (by omega)
      subst hq
      exact ⟨[], t, rfl, (Option.some.inj hc).symm, rfl⟩
    · rw [closeFrom_cons, hf] at hc
      cases hc
    · rw [closeFrom_of_passes hf hn] at hc
      obtain ⟨p, r, rfl, rfl, he⟩ := ih h' ho' hc
      have hn' : n = q.length + 1 := by
        rcases hn with hn | ⟨hn, -⟩
        · exact hn
        · simp at hn
      refine ⟨b :: (q ++ p), r, by simp, by simp; omega, ?_⟩
      rw [he]
      simp only [List.reverse_cons, List.reverse_append, List.append_assoc]
  | unterminated openedAt st' before rest hr =>
    obtain ⟨frames, rfl⟩ := h.template
    rw [closeFrom_unterminated hr] at hc
    cases hc
  | record openedAt st' before text t ht ih =>
    obtain ⟨frames, rfl⟩ := h.template
    rw [ht.closeFrom_inBraces] at hc
    have ho' : o ≤ ((inBraces text).reverse ++ before).length := by
      rw [length_reverse_append]
      omega
    obtain ⟨p, r, rfl, rfl, he⟩ := ih h ho' hc
    refine ⟨inBraces text ++ p, r, by simp, by simp; omega, ?_⟩
    rw [scanFrom_record_eq ht, List.reverse_append, List.append_assoc]
    exact he

/-- `Stacked k levels`: what the levels are inside of opens before the offset `k`, the outer before the
inner, and an expression opens directly inside of a template. -/
inductive Stacked : Nat → List Level → Prop
  | base (k depth : Nat) : Stacked k [.code depth none]
  | code {k i j depth : Nat} {tagged : Bool} {st : List Level} (opened : i < k)
      (rest : Stacked i (.template j tagged :: st)) :
      Stacked k (.code depth (some i) :: .template j tagged :: st)
  | template {k i : Nat} {tagged : Bool} {st : List Level} (opened : i < k) (rest : Stacked i st) :
      Stacked k (.template i tagged :: st)
  | other {k : Nat} {l : Level} {st : List Level} (opened : l.openedAt? = none)
      (inner : l.isBase = false) (rest : Stacked k st) : Stacked k (l :: st)

theorem Stacked.mono {k k' : Nat} (h : Stacked k levels) (hk : k ≤ k') : Stacked k' levels := by
  induction h with
  | base => exact .base _ _
  | code opened rest => exact .code (by omega) rest
  | template opened rest => exact .template (by omega) rest
  | other opened inner _ ih => exact .other opened inner (ih hk)

theorem Stacked.lt_of_opensAt {k i : Nat} (h : Stacked k levels) (hi : OpensAt levels i) : i < k := by
  induction h with
  | base =>
    rcases opensAt_cons.1 hi with hi | hi
    · cases hi
    · exact absurd hi opensAt_nil
  | code opened rest ih =>
    rcases opensAt_cons.1 hi with hi | hi
    · cases hi
      exact opened
    · exact (ih hi).trans opened
  | template opened rest ih =>
    rcases opensAt_cons.1 hi with hi | hi
    · cases hi
      exact opened
    · exact (ih hi).trans opened
  | other opened inner rest ih =>
    rcases opensAt_cons.1 hi with hi | hi
    · rw [opened] at hi
      cases hi
    · exact ih hi

theorem Stacked.ne_nil {k : Nat} (h : Stacked k levels) : levels ≠ [] := by
  cases h <;> exact List.cons_ne_nil _ _

theorem Stacked.step {b : UInt8} {next : Option UInt8} {n : Nat} (h : Stacked before.length levels)
    (hs : levelStep tag levels before b next = .pass n levels') :
    Stacked (before.length + n) levels' := by
  have hpos := levelStep_pass_pos hs
  have hle := Nat.le_add_right before.length n
  have again := h.mono hle
  have template (tagged : Bool) : Stacked (before.length + n) (.template before.length tagged :: levels) :=
    .template (by omega) h
  have other {l : Level} (hl : l.openedAt? = none) (hb : l.isBase = false) :
      Stacked (before.length + n) (l :: levels) := .other hl hb again
  cases h with
  | base _ depth =>
    simp only [levelStep] at hs
    split_ifs at hs with _ _ _ _ _ _ hleave <;> cases hs
    · exact other (l := .quoted b) rfl rfl
    · exact template _
    · exact other (l := .lineComment) rfl rfl
    · exact other (l := .blockComment) rfl rfl
    · exact .base _ _
    · cases hleave.2
    · exact .base _ _
    · exact .base _ _
  | @code _ i j depth tagged st opened rest =>
    rcases levelStep_code (g := []) hs with ⟨-, -, -, rfl⟩ | ⟨d, rfl, -⟩ | ⟨l, rfl, hl, hi | ⟨t, rfl⟩, -⟩
    · exact rest.mono (by omega)
    · exact .code (by omega) rest
    · exact other hi hl
    · exact template t
  | @template _ i tagged st opened rest =>
    have inside : Stacked (before.length + n)
        (.code 0 (some before.length) :: .template i tagged :: st) :=
      .code (by omega) (.template opened rest)
    have outside := rest.mono (show i ≤ before.length + n by omega)
    simp only [levelStep] at hs
    split_ifs at hs <;> cases hs <;> assumption
  | @other _ l st opened inner rest =>
    have outside := rest.mono hle
    cases l with
    | code depth openedAt =>
      cases openedAt with
      | none => cases inner
      | some i => cases opened
    | template i tagged => cases opened
    | _ =>
      simp only [levelStep] at hs
      split_ifs at hs <;> cases hs <;> assumption

/-- What a normal form may have put at the end of the text: nothing, or calm bytes and a brace. -/
def ClosesBlock (tail : Source) : Prop :=
  tail = [] ∨ ∃ c, tail = c ++ [Bracket.brace.closing] ∧ ∀ b ∈ c, Calm b

theorem closesBlock_of_mem_blockEnds {tail : Source} (h : tail ∈ blockEnds) : ClosesBlock tail := by
  simp only [blockEnds, List.mem_cons, List.not_mem_nil, or_false] at h
  rcases h with rfl | rfl | rfl
  · exact .inl rfl
  · exact .inr ⟨Source.ofString "); ", by decide, List.all_iff_forall_prop.1 (by decide)⟩
  · exact .inr ⟨Source.ofString "\n); ", by decide, List.all_iff_forall_prop.1 (by decide)⟩

theorem ClosesBlock.drop_one {tail : Source} (h : ClosesBlock tail) : ClosesBlock (tail.drop 1) := by
  rcases h with rfl | ⟨c, rfl, hc⟩
  · exact .inl rfl
  · cases c with
    | nil => exact .inl rfl
    | cons b c => exact .inr ⟨c, rfl, fun a ha => hc a (List.mem_cons_of_mem _ ha)⟩

theorem ClosesBlock.mild {tail : Source} (h : ClosesBlock tail) : ∀ b ∈ tail, Mild b := by
  rcases h with rfl | ⟨c, rfl, hc⟩
  · exact fun _ hb => absurd hb List.not_mem_nil
  · intro b hb
    rcases List.mem_append.1 hb with hb | hb
    · exact (hc b hb).1
    · rw [List.mem_singleton.1 hb]
      decide

/-- What is not closed is not closed before the closing bracket that is put behind it. -/
theorem Bracket.length_of_close?_append {k : Bracket} {s : Source} {j : Nat} (h : k.close? s = none)
    (hj : k.close? (s ++ [k.closing]) = some j) : j = s.length := by
  have hb : Based k [.code k 0] := .inl ⟨rfl, rfl⟩
  obtain ⟨p, t, he, rfl, hw⟩ := walks_of_closeFrom hb hj
  rcases List.eq_nil_or_concat t with rfl | ⟨t, b, rfl⟩
  · obtain ⟨rfl, -⟩ := List.append_inj' he rfl
    exact Nat.zero_add _
  · rw [List.concat_eq_append, ← List.cons_append, ← List.append_assoc] at he
    obtain ⟨rfl, -⟩ := List.append_inj' he rfl
    have hclose := hw.closeFrom_append (t := k.closing :: t) 0
    rw [closeFrom_cons, frameStep_eq_close_iff.2 ⟨k, rfl, rfl⟩] at hclose
    exact absurd (h.symm.trans hclose) (by simp)

/-- An expression that is closed by what is put behind it is closed by the last byte of it. -/
theorem ClosesBlock.eq_of_close? {s tail : Source} {j : Nat} (h : ClosesBlock tail)
    (hs : Bracket.brace.close? s = none) (hj : Bracket.brace.close? (s ++ tail) = some j) :
    ∃ c, tail = c ++ [Bracket.brace.closing] ∧ j = (s ++ c).length := by
  rcases h with rfl | ⟨c, rfl, hc⟩
  · rw [List.append_nil, hs] at hj
    cases hj
  · have hnone : Bracket.brace.close? (s ++ c) = none :=
      Bracket.close?_append_eq_none hs fun hm => (hc _ hm).2.2 rfl
    rw [← List.append_assoc] at hj
    exact ⟨c, rfl, Bracket.length_of_close?_append hnone hj⟩

def InExpression (levels : List Level) (o : Nat) : Prop :=
  ∃ depth, .code depth (some o) ∈ levels

theorem inExpression_of_endOfText (h : endOfText levels = .broken (.unterminatedExpression o)) :
    InExpression levels o := by
  induction levels with
  | nil => cases h
  | cons l levels ih =>
    have later (h : endOfText levels = .broken (.unterminatedExpression o)) :
        InExpression (l :: levels) o := (ih h).imp fun _ => List.mem_cons_of_mem _
    cases l with
    | code depth openedAt =>
      cases openedAt with
      | none => cases h
      | some i =>
        cases h
        exact ⟨depth, List.mem_cons_self⟩
    | template i tagged => cases h
    | _ => exact later h

theorem inExpression_step {b : UInt8} {next : Option UInt8} {n : Nat}
    (hs : levelStep tag levels before b next = .pass n levels') (h : InExpression levels' o) :
    InExpression levels o ∨ o = before.length ∧ b = Source.dollar ∧
      next = some Bracket.brace.opening ∧ n = 2 ∧ levels' = .code 0 (some o) :: levels := by
  obtain ⟨d, hd⟩ := h
  have keep {l : Level} {st : List Level} (h : .code d (some o) ∈ st) : InExpression (l :: st) o :=
    ⟨d, List.mem_cons_of_mem _ h⟩
  cases levels with
  | nil => cases hs
  | cons l st =>
    cases l with
    | code depth openedAt =>
      have deeper (d' : Nat) (h : .code d (some o) ∈ Level.code d' openedAt :: st) :
          InExpression (.code depth openedAt :: st) o := by
        rcases List.mem_cons.1 h with h | h
        · obtain ⟨-, rfl⟩ := Level.code.inj h
          exact ⟨depth, List.mem_cons_self⟩
        · exact keep h
      refine .inl ?_
      simp only [levelStep] at hs
      split_ifs at hs <;> cases hs
      · exact ⟨d, by simpa using hd⟩
      · exact ⟨d, by simpa using hd⟩
      · exact ⟨d, by simpa using hd⟩
      · exact ⟨d, by simpa using hd⟩
      · exact deeper _ hd
      · exact keep hd
      · exact deeper _ hd
      · exact ⟨d, hd⟩
    | template i tagged =>
      simp only [levelStep] at hs
      split_ifs at hs with h₁ h₂ h₃ h₄ <;> cases hs
      · exact .inl ⟨d, hd⟩
      · exact .inl (keep hd)
      · rcases List.mem_cons.1 hd with hd | hd
        · obtain ⟨rfl, ho⟩ := Level.code.inj hd
          obtain rfl := Option.some.inj ho
          exact .inr ⟨rfl, h₃.1, h₃.2, rfl, rfl⟩
        · exact .inl ⟨d, hd⟩
      · exact .inl ⟨d, hd⟩
    | _ =>
      refine .inl ?_
      simp only [levelStep] at hs
      split_ifs at hs <;> cases hs <;> first | exact ⟨d, hd⟩ | exact keep hd

theorem levels_of_escape {b : UInt8} (hs : levelStep tag levels before b none = .pass 2 levels') :
    levels' = levels := by
  cases levels with
  | nil => cases hs
  | cons l st => cases l <;> grind [levelStep]

theorem ending_of_calm {p : Source} (hl : Stacked before.length levels) (hp : ∀ b ∈ p, Calm b) :
    (scanFrom tag levels before p).ending = endOfText levels := by
  induction p generalizing levels before with
  | nil =>
    obtain ⟨l, st, rfl⟩ := List.exists_cons_of_ne_nil hl.ne_nil
    rw [scanFrom]
  | cons b p ih =>
    obtain ⟨hb, hp⟩ := List.forall_mem_cons.1 hp
    obtain ⟨levels', hs, he⟩ := levelStep_calm tag before hb hl.ne_nil p.head?
    rw [scanFrom_cons _ _ _ _ _ _ _ hs, ← he]
    exact ih (hl.step hs) hp

/-- Behind an expression that is left open, the end of a block leaves it open, or leaves open the
template around it. -/
theorem ending_of_closesBlock {tail : Source} (hl : Stacked before.length levels)
    (h : endOfText levels = .broken (.unterminatedExpression o)) (htail : ClosesBlock tail) :
    (scanFrom tag levels before tail).ending = .broken (.unterminatedExpression o) ∨
      ∃ i < o, (scanFrom tag levels before tail).ending = .broken (.unterminatedTemplate i) := by
  rcases htail with rfl | ⟨c, rfl, hc⟩
  · rw [ending_of_calm hl (by simp)]
    exact .inl h
  · induction c generalizing levels before with
    | cons b c ih =>
      obtain ⟨hb, hc⟩ := List.forall_mem_cons.1 hc
      obtain ⟨levels', hs, he⟩ := levelStep_calm tag before hb hl.ne_nil
        (c ++ [Bracket.brace.closing]).head?
      rw [List.cons_append, scanFrom_cons _ _ _ _ _ _ _ hs]
      exact ih (hl.step hs) (he.trans h) hc
    | nil =>
      have last {levels' : List Level}
          (hs : levelStep tag levels before Bracket.brace.closing none = .pass 1 levels') :
          (scanFrom tag levels before [Bracket.brace.closing]).ending = endOfText levels' := by
        rw [scanFrom_cons _ _ _ _ _ _ _ hs]
        exact ending_of_calm (hl.step hs) (by simp)
      rw [List.nil_append]
      cases hl with
      | base => cases h
      | @code _ i j depth tagged st opened rest =>
        cases h
        cases depth with
        | zero =>
          have hj := rest.lt_of_opensAt (i := j) (opensAt_cons.2 (.inl rfl))
          exact .inr ⟨j, hj, last rfl⟩
        | succ depth => exact .inl (last rfl)
      | template => cases h
      | @other _ l st opened inner rest =>
        left
        cases l with
        | code depth openedAt => cases openedAt <;> simp_all [Level.isBase, Level.openedAt?]
        | template i tagged => cases opened
        | quoted q =>
          have h₁ : Bracket.brace.closing ≠ Source.backslash := by decide
          have h₂ : Bracket.brace.closing ≠ Source.newline := by decide
          by_cases hq : Bracket.brace.closing = q
          · refine (@last st ?_).trans h
            rw [levelStep, if_neg h₁, if_pos (.inr hq)]
          · exact (@last (.quoted q :: st) (by simp [levelStep, h₁, h₂, hq])).trans h
        | lineComment => exact (@last (.lineComment :: st) rfl).trans h
        | blockComment => exact (@last (.blockComment :: st) rfl).trans h

theorem close?_eq_none_of_append {s t : Source} (h : Bracket.brace.close? (s ++ t) = none) :
    Bracket.brace.close? s = none := by
  cases hs : Bracket.brace.close? s with
  | none => rfl
  | some j =>
    obtain ⟨hclosed, heq⟩ := closed_of_close?_eq hs
    rw [heq, List.append_assoc, List.cons_append, hclosed.close?_eq] at h
    cases h

theorem close?_eq_none_of_ending {s : Source} (hst : Stacked o st) (ho : o ≤ before.length)
    (h : (scanFrom tag (.code 0 (some o) :: st) before s).ending =
      .broken (.unterminatedExpression o)) : Bracket.brace.close? s = none := by
  cases hs : Bracket.brace.close? s with
  | none => rfl
  | some j =>
    have within : Within o st _ _ := .base 0
    obtain ⟨p, r, -, -, he⟩ := @Within.ending_eq tag _ _ _ _ _ _ _ _ within ho hs
    obtain ⟨i, hi, hopen⟩ := scanFrom_broken (he.symm.trans h)
    obtain rfl : o = i := Option.some.inj hi
    rcases hopen with hopen | hle
    · exact absurd (hst.lt_of_opensAt hopen) (Nat.lt_irrefl o)
    · simp only [List.length_cons, List.length_append] at hle
      omega

/-- An expression left open at the offset `o` in which the levels stand either stays open, or a template
around it is left open in its place. -/
def StaysOpen (levels : List Level) (o : Nat) (e : Ending) : Prop :=
  InExpression levels o ∧
    (e = .broken (.unterminatedExpression o) ∨ ∃ i < o, e = .broken (.unterminatedTemplate i))

/-- An expression that opens in the text `p` and is left open stays open with the text `tail` behind it,
unless that closes it. -/
def OpensIn (k : Nat) (p tail : Source) (o : Nat) (e : Ending) : Prop :=
  ∃ q u, p = q ++ Source.dollar :: Bracket.brace.opening :: u ∧ o = k + q.length ∧
    if Bracket.brace.close? (u ++ tail) = none then e = .broken (.unterminatedExpression o)
    else ∃ i < o, e = .broken (.unterminatedTemplate i)

theorem OpensIn.append {k : Nat} {p tail : Source} {e : Ending} (q : Source)
    (h : OpensIn (k + q.length) p tail o e) : OpensIn k (q ++ p) tail o e := by
  obtain ⟨q', u, rfl, rfl, he⟩ := h
  exact ⟨q ++ q', u, by rw [List.append_assoc], by rw [List.length_append, Nat.add_assoc], he⟩

/-- Where an expression is left open, what is put at the end of the text leaves it open, or closes it and
leaves the template around it open. -/
theorem ending_append {p rest tail : Source} (hl : Stacked before.length levels)
    (hrest : ∀ b ∈ rest, Calm b) (htail : ClosesBlock tail)
    (h : (scanFrom tag levels before (p ++ rest)).ending = .broken (.unterminatedExpression o)) :
    StaysOpen levels o (scanFrom tag levels before (p ++ tail)).ending ∨
      OpensIn before.length p tail o (scanFrom tag levels before (p ++ tail)).ending := by
  induction levels, before, p using scan_induction tag with
  | close before s => cases hl
  | done levels before =>
    rw [List.nil_append, ending_of_calm hl hrest] at h
    exact .inl ⟨inExpression_of_endOfText h, ending_of_closesBlock hl h htail⟩
  | pass levels before b q t levels' hp ih =>
    obtain ⟨n, hs, hn⟩ := hp
    have hle := levelStep_pass_le hs
    have hl' := hl.step hs
    have hstep {u : Source} (hu : ∀ c ∈ u, Mild c) :
        levelStep tag levels before b (q ++ t ++ u).head? = .pass n levels' :=
      (levelStep_append_mild hu).trans hs
    have hstepRest := hstep fun b hb => (hrest b hb).1
    have hstepTail := hstep htail.mild
    by_cases hq : n = q.length + 1
    · have hpass {u : Source} (hu : levelStep tag levels before b (q ++ t ++ u).head? =
          .pass n levels') : Passes tag levels before b q (t ++ u) levels' :=
        ⟨n, by rwa [← List.append_assoc], .inl hq⟩
      have hlen : ((b :: q).reverse ++ before).length = before.length + n := by
        rw [length_reverse_append, hq]
        rfl
      rw [List.cons_append, List.append_assoc] at h ⊢
      rw [(hpass hstepRest).scanFrom_eq] at h
      rw [(hpass hstepTail).scanFrom_eq]
      rw [← hlen] at hl'
      rcases ih hl' h with ⟨hin, hend⟩ | hin
      · rcases inExpression_step hs hin with hin | ⟨rfl, rfl, hnext, rfl, rfl⟩
        · exact .inl ⟨hin, hend⟩
        · -- The expression of a plain template opens here.
          have hq1 : q.length = 1 := by omega
          obtain ⟨c, rfl⟩ := List.length_eq_one_iff.1 hq1
          obtain rfl : c = Bracket.brace.opening := Option.some.inj hnext
          refine .inr ⟨[], t, rfl, rfl, ?_⟩
          have hbefore : before.length ≤
              ((Source.dollar :: [Bracket.brace.opening]).reverse ++ before).length := by
            rw [hlen]
            omega
          have within : Within before.length levels _ _ := .base 0
          have hunclosed := close?_eq_none_of_append (close?_eq_none_of_ending hl hbefore h)
          split
          · next hnone =>
            obtain ⟨err, i, herr, hi, hle⟩ := @Within.broken tag _ _ _ _ _ _ _ within hbefore hnone
            rcases hend with hend | ⟨j, hj, hend⟩
            · exact hend
            · rw [herr] at hend
              cases hend
              cases hi
              omega
          · next hsome =>
            rcases hend with hend | hend
            · exact absurd (close?_eq_none_of_ending hl hbefore hend) hsome
            · exact hend
      · right
        rw [hlen, hq] at hin
        exact hin.append (b :: q)
    · -- The last byte of the text escapes the first one of what follows.
      obtain ⟨rfl, hlt⟩ := hn.resolve_left hq
      obtain rfl : q = [] := List.length_eq_zero_iff.1 (by omega)
      obtain rfl : n = 1 + 1 := by
        rw [List.length_nil] at hq hlt
        omega
      obtain rfl := levels_of_escape hs
      have hescape {u : Source} (hu : levelStep tag levels' before b u.head? = .pass 2 levels') :
          scanFrom tag levels' before (b :: u) =
            scanFrom tag levels' (((b :: u).take 2).reverse ++ before) (u.drop 1) :=
        scanFrom_cons tag levels' before b u 2 levels' hu
      have hl' (u : Source) : Stacked (((b :: u).take 2).reverse ++ before).length levels' := by
        rw [length_reverse_append]
        exact hl.mono (Nat.le_add_right _ _)
      rw [List.nil_append, List.nil_append] at hstepRest hstepTail
      rw [List.nil_append, List.singleton_append] at h ⊢
      rw [hescape hstepRest,
        ending_of_calm (hl' rest) fun c hc => hrest c (List.mem_of_mem_drop hc)] at h
      rw [hescape hstepTail]
      exact .inl ⟨inExpression_of_endOfText h, ending_of_closesBlock (hl' tail) h htail.drop_one⟩
  | unterminated openedAt st before u hc =>
    have hnone : Bracket.brace.close? (u ++ rest) = none :=
      Bracket.close?_append_eq_none hc fun hm => (hrest _ hm).2.2 rfl
    rw [List.cons_append, List.cons_append] at h ⊢
    rw [scanFrom_unterminated_eq hnone] at h
    obtain rfl : before.length = o := TemplateError.unterminatedExpression.inj (Ending.broken.inj h)
    refine .inr ⟨[], u, rfl, rfl, ?_⟩
    split
    · next htail' => rw [scanFrom_unterminated_eq htail']
    · next htail' =>
      obtain ⟨j, hj⟩ := Option.ne_none_iff_exists'.1 htail'
      obtain ⟨c, rfl, rfl⟩ := htail.eq_of_close? hc hj
      obtain ⟨hclosed, -⟩ := closed_of_close?_eq hj
      rw [← List.append_assoc] at hclosed ⊢
      rw [List.take_left] at hclosed
      have hrecord := @scanFrom_record_eq tag openedAt st before _ hclosed []
      rw [List.append_nil, inBraces, scanFrom] at hrecord
      exact ⟨openedAt, hl.lt_of_opensAt (opensAt_cons.2 (.inl rfl)), congrArg Scan.ending hrecord⟩
  | record openedAt st before text t hc ih =>
    rw [List.append_assoc, scanFrom_record_eq hc] at h ⊢
    have hlen : ((inBraces text).reverse ++ before).length = before.length + (inBraces text).length :=
      length_reverse_append _ _
    rcases ih (hl.mono (by omega)) h with hin | hin
    · exact .inl hin
    · rw [hlen] at hin
      exact .inr (hin.append (inBraces text))

def expressionOpening : Source :=
  [Source.dollar, Bracket.brace.opening]

theorem Crosses.scan_error_eq {p : Source} {ts : List Source} (h : Crosses tag p ts) (t : Source) :
    ∃ depth, (scan tag (p ++ t)).error = (scanFrom tag [.code depth none] p.reverse t).error := by
  obtain ⟨depth, es, -, heq⟩ := (h [] rfl).2 0 t
  refine ⟨depth, ?_⟩
  rw [scan, heq, List.append_nil]
  rfl

theorem Crosses.lastName_eq {p : Source} {ts : List Source} (h : Crosses tag p ts) :
    lastName p.reverse = [] := by
  simpa using (h [] rfl).1

/-- An expression that is left open is left open with the end of a block behind it, or is closed by that
and leaves the template around it open. -/
theorem Reformed.leftOpen {s n : Source} (htag : ∀ b ∈ tag, isIdentifierByte b)
    (h : Reformed tag s n) (ho : (scan tag s).error = some (.unterminatedExpression o)) :
    ∃ p u rest tail, s.drop o = expressionOpening ++ (u ++ rest) ∧
      n = p ++ (expressionOpening ++ (u ++ tail)) ∧ (∀ b ∈ rest, Trailing b) ∧ tail ∈ blockEnds ∧
      if Bracket.brace.close? (u ++ tail) = none then
        (scan tag n).error = some (.unterminatedExpression p.length)
      else ∃ i < p.length, (scan tag n).error = some (.unterminatedTemplate i) := by
  obtain ⟨p, p', text, rest, tail, ts, rfl, rfl, hp, hp', hrest, htail⟩ := h
  obtain ⟨depth, hs⟩ := hp.scan_error_eq (text ++ rest)
  obtain ⟨depth', hn⟩ := hp'.scan_error_eq (text ++ tail)
  -- In the other place, the same is left open at another offset.
  obtain ⟨hmoved, -⟩ := @scanFrom_moved (· + p'.length) (· + p.length) tag htag [.code depth none]
    [.code depth' none] p.reverse p'.reverse (text ++ rest) rfl
    (hp.lastName_eq.trans hp'.lastName_eq.symm) fun k => by simp only [List.length_reverse]; omega
  rw [← hs, ho] at hmoved
  obtain ⟨err, herr, hoff⟩ := Option.map_eq_some_iff.1 hmoved.symm
  cases err with
  | unterminatedTemplate | unrecognizedFunction => cases hoff
  | unterminatedExpression o' =>
    have hoff : o' + p.length = o + p'.length := TemplateError.unterminatedExpression.inj hoff
    rcases ending_append (.base _ depth') (fun b hb => (hrest b hb).calm)
      (closesBlock_of_mem_blockEnds htail) (Scan.error_eq_some_iff.1 herr)
      with ⟨⟨d, hin⟩, -⟩ | ⟨q, u, rfl, rfl, hend⟩
    · cases List.mem_singleton.1 hin
    · rw [List.length_reverse] at hoff hend
      refine ⟨p' ++ q, u, rest, tail, ?_, by simp [expressionOpening], hrest, htail, ?_⟩
      · have ho' : o = (p ++ q).length := by
          rw [List.length_append]
          omega
        rw [ho', ← List.append_assoc, ← List.append_assoc, List.append_assoc (p ++ q),
          List.drop_left]
        rfl
      · rw [hn, List.length_append]
        simp only [Scan.error_eq_some_iff]
        exact hend

/-- An expression that is left open in a text without white space outside of ASCII is left open in its
normal form, and kept at the end of the result if it holds no closed expressions that are isolated, or
if it is an expression of a tagged template. But where the end of the block that the normal form puts
behind it closes it, it is closed there, and the template around it is left open. -/
theorem normalForm_leftOpen {tag : Source} (htag : ∀ b ∈ tag, isIdentifierByte b) {source : String}
    (hspace : ∀ c ∈ source.toList, c ∈ blankCharacters → c.val < 0x80) {n : Source}
    (hn : normalForm (Source.ofString source) = .ok n) {offset : Nat}
    (ho : (scan tag (Source.ofString source)).error = some (.unterminatedExpression offset)) :
    ∃ p u rest tail, (Source.ofString source).drop offset = expressionOpening ++ (u ++ rest) ∧
      n = p ++ (expressionOpening ++ (u ++ tail)) ∧ (∀ b ∈ rest, Trailing b) ∧ tail ∈ blockEnds ∧
      if Bracket.brace.close? (u ++ tail) = none then
        (scan tag n).error = some (.unterminatedExpression p.length) ∧
          ∀ o : Options, o.tag = tag → o.strict = false →
            (∀ e ∈ recordsFrom p.length (scan tag n).expressions, ¬ e.isOrdinary o) ∨
              (∃ e ∈ (scan tag n).expressions, e.terminated = false) →
            ∃ q, isolateFunction o (Source.ofString source) =
              .ok (q ++ (expressionOpening ++ (u ++ tail)))
      else ∃ i < p.length, (scan tag n).error = some (.unterminatedTemplate i) := by
  obtain ⟨p, u, rest, tail, hdrop, hsplit, hrest, htail, hopen⟩ :=
    (reformed_normalForm htag (asciiSpaced_ofString hspace) hn).leftOpen htag ho
  refine ⟨p, u, rest, tail, hdrop, hsplit, hrest, htail, ?_⟩
  split
  · next hnone =>
    rw [if_pos hnone] at hopen
    refine ⟨hopen, ?_⟩
    rintro o rfl hlenient hkept
    obtain ⟨q, -, hq⟩ := isolated_eq_append_from hlenient hopen rfl
    refine ⟨q, ?_⟩
    rw [isolateFunction_eq_ok hlenient, isolationInput, hn, hq hkept, hsplit, List.drop_left]
  · next hsome =>
    rwa [if_neg hsome] at hopen

theorem normalForm_leftOpen_comment :
    let source := "() => html`$\x7ba /*"
    let n := Source.ofString "function() \x7b return (html`$\x7ba /*\n); \x7d"
    ∃ p u rest tail, (Source.ofString source).drop 11 = expressionOpening ++ (u ++ rest) ∧
      n = p ++ (expressionOpening ++ (u ++ tail)) ∧ (∀ b ∈ rest, Trailing b) ∧ tail ∈ blockEnds ∧
      if Bracket.brace.close? (u ++ tail) = none then
        (scan Options.standard.tag n).error = some (.unterminatedExpression p.length) ∧
          ∀ o : Options, o.tag = Options.standard.tag → o.strict = false →
            (∀ e ∈ recordsFrom p.length (scan Options.standard.tag n).expressions,
                ¬ e.isOrdinary o) ∨
              (∃ e ∈ (scan Options.standard.tag n).expressions, e.terminated = false) →
            ∃ q, isolateFunction o (Source.ofString source) =
              .ok (q ++ (expressionOpening ++ (u ++ tail)))
      else ∃ i < p.length,
        (scan Options.standard.tag n).error = some (.unterminatedTemplate i) :=
  normalForm_leftOpen (List.all_eq_true.1 (by decide))
    (List.all_iff_forall_prop.1 (by decide +kernel)) (by decide +kernel) (by decide +kernel)

/-- A normal form does not always leave open what the source leaves open: the brace at its end closes the
expression, which is then isolated. -/
theorem normalForm_closes_leftOpen :
    let source := Source.ofString "() => html`$\x7ba"
    let n := Source.ofString "function() \x7b return (html`$\x7ba\n); \x7d"
    normalForm source = .ok n ∧
      (scan Options.standard.tag source).error = some (.unterminatedExpression 11) ∧
      (scan Options.standard.tag n).error = some (.unterminatedTemplate 25) ∧
      isolateFunction Options.standard source =
        .ok (Source.ofString "function() \x7b return (html`$\x7bcontain(() => (a\n); ))\x7d") := by
  decide +kernel

end Reactivity.Template
