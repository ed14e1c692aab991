import Reactivity.Proofs.Isolation.Blanks
import Reactivity.Proofs.Isolation.Undo

namespace Reactivity.Template

/-- A search under a text that ends before the record of an expression does is not over. -/
theorem closeFrom_append_none {k : Bracket} {fs gs : List Frame} (hb : Based k fs) (hg : gs ≠ [])
    (i j : Nat) (s : Source) (h : closeFrom fs i s = none) : closeFrom (fs ++ gs) j s = none := by
  match s with
  | [] => cases fs with
    | nil => cases hb
    | cons f fs => cases f <;> rfl
  | b :: r =>
    rw [closeFrom_cons] at h ⊢
    rw [frameStep_append hb hg]
    cases hs : frameStep fs b r.head? with
    | close => simp [hs] at h
    | stop => rfl
    | pass n fs' =>
      simp only [hs] at h ⊢
      have hpos : 0 < n := by rcases frameStep_pass hs with rfl | ⟨rfl, -⟩ <;> decide
      exact closeFrom_append_none (hb.step hs) hg _ _ _ h
termination_by s.length
decreasing_by simp only [List.length_drop, List.length_cons]; omega

theorem closeFrom_unterminated {fs : List Frame} {rest : Source}
    (h : Bracket.brace.close? rest = none) (i : Nat) :
    closeFrom (.template :: fs) i (Source.dollar :: Bracket.brace.opening :: rest) = none := by
  rw [closeFrom_cons, List.head?_cons, frameStep_template]
  have hb : Based .brace [.code .brace 0] := .inl ⟨rfl, rfl⟩
  exact closeFrom_append_none hb (List.cons_ne_nil _ _) _ _ _ h

theorem closeFrom_nil (fs : List Frame) (i : Nat) : closeFrom fs i [] = none := by
  cases fs with
  | nil => rfl
  | cons f fs => cases f <;> rfl

theorem Closed.closeFrom_inBraces {w : Source} (h : Closed w) (fs : List Frame) (i : Nat)
    (t : Source) :
    closeFrom (.template :: fs) i (inBraces w ++ t) =
      closeFrom (.template :: fs) (i + (inBraces w).length) t :=
  (h.walks_inBraces fs t.head?).closeFrom_append i

def Keeps (f : Expression → Option Source) : Prop :=
  ∀ e, KeepsClosed f e

theorem Keeps.openAt {f : Expression → Option Source} (hf : Keeps f) (i : Nat) (rest : Source) :
    f (.openAt i rest) = none := by
  cases he : f (.openAt i rest) with
  | none => rfl
  | some u => cases (hf _ u he).1

theorem Keeps.closedAt {f : Expression → Option Source} (hf : Keeps f) (i : Nat) {text : Source}
    (ht : Closed text) :
    ∃ w, (f (.closedAt i text)).getD (inBraces text) = inBraces w ∧ Closed w := by
  cases he : f (.closedAt i text) with
  | none => exact ⟨text, rfl, ht⟩
  | some u =>
    obtain ⟨-, w, rfl, hw⟩ := hf _ u he
    exact ⟨w, rfl, hw ht⟩

/-- `Alike tag f s t`: `t` is the text `s`, read as code, with the records in it edited. -/
def Alike (tag : Source) (f : Expression → Option Source) (s t : Source) : Prop :=
  ∃ depth before,
    t = edited f before.length (scanFrom tag [.code depth none] before s).expressions s

/-- How a search goes in a text and in the edited one: it ends in neither, or in both, and what
follows is alike. -/
theorem closeFrom_edited {tag : Source} {f : Expression → Option Source} (hf : Keeps f)
    {k : Bracket} {levels : List Level} {frames : List Frame} {before s : Source}
    (hl : Follows k levels frames) (i j : Nat) :
    let s' := edited f before.length (scanFrom tag levels before s).expressions s
    closeFrom frames i s = none ∧ closeFrom frames j s' = none ∨
      ∃ p p' r r', s = p ++ k.closing :: r ∧ s' = p' ++ k.closing :: r' ∧ Alike tag f r r' ∧
        closeFrom frames i s = some (i + p.length) ∧
        closeFrom frames j s' = some (j + p'.length) := by
  induction levels, before, s using scan_induction tag generalizing frames i j with
  | close before s => cases hl
  | done levels before =>
    rw [scanFrom_nil_source]
    exact .inl ⟨closeFrom_nil _ _, closeFrom_nil _ _⟩
  | pass levels before b q t levels' hp ih =>
    have hlo := scanFrom_located tag levels' ((b :: q).reverse ++ before) t
    have ht := edited_head? (fun e _ => hf e) hlo
    rw [hp.scanFrom_eq]
    rw [length_reverse_append] at hlo ht ih
    simp only
    rw [← List.cons_append, edited_append hlo, List.cons_append, List.cons_append]
    have hhead := head?_append_congr (q := q) ht
    obtain ⟨n, hs, hn⟩ := hp
    by_cases hclose : frameStep frames b (q ++ t).head? = .close
    · obtain ⟨k', rfl, rfl⟩ := frameStep_eq_close_iff.1 hclose
      obtain ⟨depth, d, rfl, hk⟩ := hl.eq_base
      obtain ⟨rfl, rfl⟩ := Frame.code.inj hk
      have hinert : Inert k'.closing := by cases k' <;> decide
      obtain ⟨depth', hs'⟩ := levelStep_base tag depth before hinert (q ++ t).head?
      obtain ⟨rfl, rfl⟩ := LevelStep.pass.inj (hs.symm.trans hs')
      obtain rfl : q = [] := by
        rcases hn with hn | ⟨-, hn⟩
        · exact List.length_eq_zero_iff.1 (Nat.succ.inj hn).symm
        · exact List.length_eq_zero_iff.1 (Nat.lt_one_iff.1 hn)
      refine .inr ⟨[], [], t, _, rfl, rfl, ⟨depth', [k'.closing].reverse ++ before, ?_⟩, ?_, ?_⟩
      · rw [length_reverse_append, List.nil_append]
      · rw [closeFrom_cons, hclose]
        rfl
      · rw [closeFrom_cons, hhead, hclose]
        rfl
    · have hstop : (q ++ t).head? = none → closeFrom frames i (b :: (q ++ t)) = none ∧
          closeFrom frames j (b :: (q ++ edited f (before.length + (b :: q).length)
            (scanFrom tag levels' ((b :: q).reverse ++ before) t).expressions t)) = none := by
        intro hnil
        rw [closeFrom_cons, closeFrom_cons, hhead]
        have hr := List.head?_eq_none_iff.1 hnil
        have hr' := List.head?_eq_none_iff.1 (hhead.trans hnil)
        rw [hr, hr']
        cases hf' : frameStep frames b ([] : Source).head? with
        | close => rw [hr] at hclose; exact absurd hf' hclose
        | stop => exact ⟨rfl, rfl⟩
        | pass m fs =>
          have hpos : 0 < m := by rcases frameStep_pass hf' with rfl | ⟨rfl, -⟩ <;> decide
          obtain ⟨m, rfl⟩ := Nat.exists_eq_succ_of_ne_zero (Nat.ne_of_gt hpos)
          simp only [Nat.succ_eq_add_one, List.drop_succ_cons, List.drop_nil, closeFrom_nil,
            and_self]
      cases hc : (q ++ t).head? with
      | none => exact .inl (hstop hc)
      | some c =>
        rw [hc] at hs hclose hhead
        rcases hl.step hs (c := c) rfl with hclose' | ⟨frames', hpass, hl'⟩
        · exact absurd hclose' hclose
        · have hdrop (u : Source) (hu : t = [] → u = []) : (b :: (q ++ u)).drop n = u := by
            rcases hn with rfl | ⟨rfl, hn⟩
            · change (b :: q ++ u).drop (b :: q).length = u
              exact List.drop_left
            · rw [hu rfl, List.append_nil, List.drop_of_length_le hn]
          have hgo (u : Source) (hu : t = [] → u = []) (hh : (q ++ u).head? = some c) (i : Nat) :
              closeFrom frames i (b :: (q ++ u)) = closeFrom frames' (i + n) u := by
            rw [closeFrom_cons, hh, hpass]
            simp only [hdrop u hu]
          have hu : t = [] → edited f (before.length + (b :: q).length)
              (scanFrom tag levels' ((b :: q).reverse ++ before) t).expressions t = [] := by
            rintro rfl
            exact List.head?_eq_none_iff.1 ht
          rw [hgo t id hc, hgo _ hu hhead]
          rcases ih hl' (i + n) (j + n) with ⟨h, h'⟩ | ⟨p, p', r, r', hp, hp', hr, h, h'⟩
          · exact .inl ⟨h, h'⟩
          · have hn' : n = q.length + 1 := by
              rcases hn with hn | ⟨rfl, -⟩
              · exact hn
              · simp at hp
            refine .inr ⟨b :: (q ++ p), b :: (q ++ p'), r, r', ?_, ?_, hr, ?_, ?_⟩
            · rw [List.cons_append, List.append_assoc, ← hp]
            · rw [List.cons_append, List.append_assoc, ← hp']
            · rw [h, hn', List.length_cons, List.length_append]
              congr 1
              omega
            · rw [h', hn', List.length_cons, List.length_append]
              congr 1
              omega
  | unterminated openedAt st before rest hc =>
    obtain ⟨frames, rfl⟩ := hl.template
    rw [scanFrom_unterminated hc, edited_openAt (hf.openAt _ _)]
    exact .inl ⟨closeFrom_unterminated hc _, closeFrom_unterminated hc _⟩
  | record openedAt st before text t hc ih =>
    obtain ⟨frames, rfl⟩ := hl.template
    rw [scanFrom_record hc]
    simp only
    rw [edited_closedAt]
    obtain ⟨w, hw, hcw⟩ := hf.closedAt before.length hc
    rw [hw, hc.closeFrom_inBraces, hcw.closeFrom_inBraces]
    rw [length_reverse_append] at ih
    rcases ih hl (i + (inBraces text).length) (j + (inBraces w).length) with
      ⟨h, h'⟩ | ⟨p, p', r, r', hp, hp', hr, h, h'⟩
    · exact .inl ⟨h, h'⟩
    · refine .inr ⟨inBraces text ++ p, inBraces w ++ p', r, r', ?_, ?_, hr, ?_, ?_⟩
      · rw [List.append_assoc, ← hp]
      · rw [List.append_assoc, ← hp']
      · rw [h, List.length_append, Nat.add_assoc]
      · rw [h', List.length_append, Nat.add_assoc]

theorem Inert.of_isSolid_or {b : UInt8} (h : b < 0x21 ∨ 0x80 ≤ b) : Inert b := by
  refine ⟨?_, ?_, ?_, ?_⟩ <;>
    · rintro rfl
      exact absurd h (by decide)

theorem inert_of_mem_blank {w : Source} (hw : w ∈ blanks) : ∀ b ∈ w, Inert b :=
  fun b hb => .of_isSolid_or (blank_bytes w hw b hb)

theorem inert_of_isIdentifierByte {b : UInt8} (h : isIdentifierByte b) : Inert b :=
  have ⟨h₁, h₂, h₃, h₄, _⟩ := isPlain_of_isIdentifierByte h
  ⟨h₁, h₂, h₃, h₄⟩

namespace Alike

variable {tag : Source} {f : Expression → Option Source} {s t : Source}

theorem tail {b : UInt8} {r : Source} (h : Alike tag f (b :: r) t) (hb : Inert b) :
    ∃ r', t = b :: r' ∧ Alike tag f r r' := by
  obtain ⟨depth, before, rfl⟩ := h
  obtain ⟨depth', hs⟩ := levelStep_base tag depth before hb r.head?
  have hp : Passes tag [.code depth none] before b [] r [.code depth' none] :=
    ⟨1, hs, .inl rfl⟩
  have he := hp.scanFrom_eq
  rw [List.nil_append] at he
  have hlo := scanFrom_located tag [.code depth' none] ([b].reverse ++ before) r
  refine ⟨_, ?_, depth', [b].reverse ++ before, rfl⟩
  rw [length_reverse_append] at hlo ⊢
  rw [he]
  exact edited_append hlo

variable (hf : Keeps f)
include hf

theorem head? (h : Alike tag f s t) : t.head? = s.head? := by
  obtain ⟨depth, before, rfl⟩ := h
  exact edited_head? (fun e _ => hf e) (scanFrom_located tag [.code depth none] before s)

theorem eq_nil_iff (h : Alike tag f s t) : t = [] ↔ s = [] := by
  rw [← List.head?_eq_none_iff, h.head? hf, List.head?_eq_none_iff]

theorem dropPrefix? {p : Source} (hp : ∀ b ∈ p, Inert b) (h : Alike tag f s t) :
    Option.Rel (Alike tag f) (dropPrefix? p s) (dropPrefix? p t) := by
  induction p generalizing s t with
  | nil => exact .some h
  | cons a p ih =>
    have hh := h.head? hf
    cases s with
    | nil =>
      rw [(h.eq_nil_iff hf).2 rfl]
      exact .none
    | cons b s =>
      cases t with
      | nil => cases hh
      | cons c t =>
        obtain rfl : c = b := Option.some.inj hh
        simp only [Template.dropPrefix?]
        split
        · next hac =>
          subst hac
          obtain ⟨r', hr, hr'⟩ := h.tail (hp a (List.mem_cons_self ..))
          obtain ⟨-, rfl⟩ := List.cons.inj hr
          exact ih (fun b hb => hp b (List.mem_cons_of_mem _ hb)) hr'
        · exact .none

theorem dropBlank? (h : Alike tag f s t) :
    Option.Rel (Alike tag f) (dropBlank? s) (dropBlank? t) := by
  simp only [Template.dropBlank?]
  have hw : ∀ w ∈ blanks, ∀ b ∈ w, Inert b := fun w hw => inert_of_mem_blank hw
  generalize blanks = ws at hw
  induction ws with
  | nil => exact .none
  | cons w ws ih =>
    have hd := h.dropPrefix? hf (hw w (List.mem_cons_self ..))
    rw [List.findSome?_cons, List.findSome?_cons]
    generalize Template.dropPrefix? w s = a, Template.dropPrefix? w t = b at hd
    cases hd with
    | none => exact ih fun v hv => hw v (List.mem_cons_of_mem _ hv)
    | some hr => exact .some hr

theorem trimStart (h : Alike tag f s t) : Alike tag f (trimStart s) (trimStart t) := by
  fun_induction Template.trimStart s generalizing t with
  | case1 s r hr ih =>
    have hd := h.dropBlank? hf
    rw [hr] at hd
    cases ht : Template.dropBlank? t with
    | none => rw [ht] at hd; cases hd
    | some r' =>
      rw [ht] at hd
      cases hd with
      | some hrr =>
        rw [trimStart_of_dropBlank?_some ht]
        exact ih hrr
  | case2 s hs =>
    have hd := h.dropBlank? hf
    rw [hs] at hd
    cases ht : Template.dropBlank? t with
    | none => rwa [trimStart_of_dropBlank? ht]
    | some r' => rw [ht] at hd; cases hd

theorem split? (k : Bracket) (h : Alike tag f s t) :
    Option.Rel (fun p q => Alike tag f p.2 q.2) (k.split? s) (k.split? t) := by
  obtain ⟨depth, before, rfl⟩ := h
  have key {p r : Source} (j : Nat) (hj : j = 0 + p.length) :
      (p ++ k.closing :: r).drop (j + 1) = r := by
    rw [hj, Nat.zero_add, ← List.singleton_append, ← List.append_assoc]
    exact List.drop_left' (by simp)
  have hgo := @closeFrom_edited tag f hf k _ _ before s (.base depth 0) 0 0
  rcases hgo with ⟨hs, ht⟩ | ⟨p, p', r, r', hs, ht, hr, hcs, hct⟩
  · simp only [Bracket.split?, Bracket.close?, hs, ht, Option.map_none]
    exact .none
  · simp only [Bracket.split?, Bracket.close?, hcs, hct, Option.map_some]
    refine .some ?_
    simp only
    rw [ht]
    rw [hs, key _ rfl, key _ rfl]
    exact hr

end Alike

theorem levelStep_pass_le {tag : Source} {levels levels' : List Level} {before : Source} {b : UInt8}
    {next : Option UInt8} {n : Nat} (h : levelStep tag levels before b next = .pass n levels') :
    n ≤ 2 := by
  cases levels with
  | nil => cases h
  | cons l st => cases l <;> grind [levelStep]

theorem scanFrom_singleton (tag : Source) (levels : List Level) (before : Source) (b : UInt8) :
    (scanFrom tag levels before [b]).expressions = [] := by
  cases hs : levelStep tag levels before b ([] : Source).head? with
  | close =>
    obtain rfl := levelStep_eq_close_iff.1 hs
    exact scanFrom_nil_levels ..
  | record =>
    obtain ⟨-, -, -, -, h⟩ := levelStep_eq_record_iff.1 hs
    cases h
  | pass n levels' =>
    obtain ⟨m, rfl⟩ := Nat.exists_eq_succ_of_ne_zero (Nat.ne_of_gt (levelStep_pass_pos hs))
    rw [scanFrom_cons tag levels before b [] _ levels' hs, Nat.succ_eq_add_one, List.drop_succ_cons,
      List.drop_nil, scanFrom_nil_source]

theorem Located.dollar_mem {i : Nat} {es : List Expression} {s : Source} (h : Located i es s)
    (hes : es ≠ []) : Source.dollar ∈ s := by
  cases h with
  | done => exact absurd rfl hes
  | @cons _ e es p t start stop rest =>
    exact List.mem_append_right _ (List.mem_of_head? (e.source_head? t))

theorem isSolid_dollar : IsSolid Source.dollar := by
  decide

theorem trimStart_edited {f : Expression → Option Source} (hf : Keeps f) {i : Nat}
    {es : List Expression} {s : Source} (h : Located i es s) (x : Source) :
    trimStart (x ++ edited f i es s) = [] ↔ trimStart (x ++ s) = [] := by
  cases es with
  | nil => exact Iff.rfl
  | cons e es =>
    have hs := h.dollar_mem (List.cons_ne_nil e es)
    have hs' : Source.dollar ∈ edited f i (e :: es) s := by
      cases h with
      | @cons _ _ _ p t start stop rest =>
        rw [edited_cons start stop, List.append_assoc]
        refine List.mem_append_right _ (List.mem_append_left _ ?_)
        cases he : f e with
        | none =>
          have hhead := e.source_head? []
          rw [List.append_nil] at hhead
          exact List.mem_of_head? hhead
        | some u =>
          obtain ⟨-, w, rfl, -⟩ := hf e u he
          exact List.mem_cons_self ..
    exact iff_of_false (trimStart_ne_nil isSolid_dollar (List.mem_append_right _ hs'))
      (trimStart_ne_nil isSolid_dollar (List.mem_append_right _ hs))

theorem close?_trimEnd {rest : Source} (h : Bracket.brace.close? rest = none) :
    Bracket.brace.close? (trimEnd rest) = none := by
  cases hc : Bracket.brace.close? (trimEnd rest) with
  | none => rfl
  | some j =>
    obtain ⟨hp, he⟩ := closed_of_close?_eq hc
    obtain ⟨w, hw, -⟩ := exists_append_trimEnd rest
    rw [hw, he, List.append_assoc, List.cons_append, hp.close?_eq] at h
    cases h

theorem trimEnd_inBraces (w s : Source) :
    trimEnd (inBraces w ++ s) = inBraces w ++ trimEnd s := by
  have h (s : Source) : inBraces w ++ s =
      (Source.dollar :: Bracket.brace.opening :: w) ++ Bracket.brace.closing :: s := by
    simp [inBraces]
  rw [h, h, trimEnd_append (by decide)]

theorem trimEnd_edited {tag : Source} {f : Expression → Option Source} (hf : Keeps f)
    (levels : List Level) (before s : Source) :
    trimEnd (edited f before.length (scanFrom tag levels before s).expressions s) =
      edited f before.length (scanFrom tag levels before (trimEnd s)).expressions (trimEnd s) := by
  induction levels, before, s using scan_induction tag with
  | close before s => rw [scanFrom_nil_levels, scanFrom_nil_levels, edited, edited]
  | done levels before => rw [trimEnd, scanFrom_nil_source, edited, trimEnd]
  | pass levels before b q t levels' hp ih =>
    have hlo := scanFrom_located tag levels' ((b :: q).reverse ++ before) t
    have hscan := hp.scanFrom_eq
    rw [hscan]
    rw [length_reverse_append] at hlo ih
    rw [← List.cons_append, edited_append hlo, List.cons_append, List.cons_append]
    have hblank (x : Source) := trimStart_edited hf hlo x
    by_cases hs : trimStart (b :: (q ++ t)) = []
    · have hs' := (hblank (b :: q)).2 hs
      rw [List.cons_append] at hs'
      rw [trimEnd_eq_nil_iff.2 hs, trimEnd_eq_nil_iff.2 hs', scanFrom_nil_source, edited]
    · have hs' := mt (hblank (b :: q)).1 hs
      rw [List.cons_append] at hs'
      rw [trimEnd_cons hs, trimEnd_cons hs']
      by_cases hr : trimStart (q ++ t) = []
      · rw [trimEnd_eq_nil_iff.2 hr, trimEnd_eq_nil_iff.2 ((hblank q).2 hr), scanFrom_singleton,
          edited]
      · obtain ⟨n, hstep, hn⟩ := hp
        have hle := levelStep_pass_le hstep
        have hq : n = q.length + 1 := by
          rcases hn with hn | ⟨rfl, hn⟩
          · exact hn
          · cases q with
            | nil => exact absurd (trimStart_of_dropBlank? (s := []) (by decide)) hr
            | cons c q =>
              simp only [List.length_cons] at hn ⊢
              omega
        have hcut (u : Source) (hu : trimStart (q ++ u) ≠ []) :
            trimEnd (q ++ u) = q ++ trimEnd u := by
          rcases q with _ | ⟨c, _ | ⟨d, q⟩⟩
          · rfl
          · exact trimEnd_cons hu
          · simp only [List.length_cons] at hq
            omega
        have hhead : (q ++ trimEnd t).head? = (q ++ t).head? := by
          cases q with
          | cons c q => rfl
          | nil =>
            cases t with
            | nil => exact absurd (trimStart_of_dropBlank? (s := []) (by decide)) hr
            | cons c t =>
              rw [List.nil_append, List.nil_append, trimEnd_cons hr]
              rfl
        have hp' : Passes tag levels before b q (trimEnd t) levels' :=
          ⟨n, by rwa [hhead], .inl hq⟩
        have hlo' := scanFrom_located tag levels' ((b :: q).reverse ++ before) (trimEnd t)
        rw [length_reverse_append] at hlo'
        rw [hcut t hr, hcut _ (mt (hblank q).1 hr), hp'.scanFrom_eq, ih, ← List.cons_append,
          ← List.cons_append, edited_append hlo']
  | unterminated openedAt st before rest hc =>
    have hcut : trimEnd (Source.dollar :: Bracket.brace.opening :: rest) =
        Source.dollar :: Bracket.brace.opening :: trimEnd rest :=
      trimEnd_append (p := [Source.dollar]) (by decide) rest
    rw [scanFrom_unterminated hc, edited_openAt (hf.openAt _ _), hcut,
      scanFrom_unterminated (close?_trimEnd hc), edited_openAt (hf.openAt _ _)]
  | record openedAt st before text t hc ih =>
    obtain ⟨w, hw, -⟩ := hf.closedAt before.length hc
    rw [length_reverse_append] at ih
    rw [scanFrom_record hc, edited_closedAt, hw, trimEnd_inBraces, trimEnd_inBraces,
      scanFrom_record hc, edited_closedAt, hw, ih]

theorem Alike.trimEnd {tag : Source} {f : Expression → Option Source} (hf : Keeps f) {s t : Source}
    (h : Alike tag f s t) : Alike tag f (trimEnd s) (trimEnd t) := by
  obtain ⟨depth, before, rfl⟩ := h
  exact ⟨depth, before, trimEnd_edited hf _ _ _⟩

theorem Alike.trim {tag : Source} {f : Expression → Option Source} (hf : Keeps f) {s t : Source}
    (h : Alike tag f s t) : Alike tag f (trim s) (trim t) :=
  (h.trimStart hf).trimEnd hf

end Reactivity.Template
